import Mil.Proofs.Mono.Monomorphic
import Mil.Proofs.Rep.Generate

/-!
A change of representation leaves a linked program. Each body that is put in place of another reads
the temporaries that carry the old ones, and refers to the definitions that the old one referred to,
to implementations of externals, or to blocks that were added. So a lowered program, one that a
compiler passes on to the optimiser, is linked.
-/

namespace Mil

namespace Rep

variable {R : DefnId → Prop} {n : Nat} {todo : List DefnId} {s : State} {env : Carriers}

/-! ### Operands -/

/-- The operands that carry temporaries fit. -/
def EnvFits (R : DefnId → Prop) (n : Nat) (p : Program) (env : Carriers) : Prop :=
  ∀ x ∈ env, ArgsFit R n p x.2

theorem EnvFits.grow {p p' : Program} (h : EnvFits R n p env) (hp : Grows p p') :
    EnvFits R n p' env := fun x hx => Fits.grow (h x hx) hp

theorem keeps_bindTemps {vars : List Temp} (henv : EnvFits R n s.program env) :
    Keeps R n todo todo (bindTemps env vars) s fun r s' =>
      (∀ v ∈ r.1, v < s'.program.temps.size) ∧ EnvFits R n s'.program r.2 := by
  induction vars generalizing env s with
  | nil => exact .pure ⟨List.forall_mem_nil _, henv⟩
  | cons v vars ih =>
      have hrest (types : List Ty) (s : State) (henv : EnvFits R n s.program env) :
          Keeps R n todo todo (do
            let ws ← freshTemps types
            let r ← bindTemps ((v, ws.map .temp) :: env) vars
            return (ws ++ r.1, r.2)) s fun r s' =>
              (∀ v ∈ r.1, v < s'.program.temps.size) ∧ EnvFits R n s'.program r.2 := by
        refine (keeps_freshTemps types).bind fun ws s₁ hs₁ hws => ?_
        refine (ih (List.forall_mem_cons.mpr ⟨argsFit_temps hws, henv.grow hs₁⟩)).bind
          fun r s₂ hs₂ hr => ?_
        obtain ⟨rest, env'⟩ := r
        obtain ⟨hrest, henv'⟩ := hr
        refine .pure ⟨?_, henv'⟩
        exact List.forall_mem_append.mpr
          ⟨fun w hw => Nat.lt_of_lt_of_le (hws w hw) hs₂.temps, hrest⟩
      unfold bindTemps
      refine keeps_get.bind fun _ s₁ hs₁ _ => ?_
      split
      · exact (keeps_repsOf _).bind fun types s₂ hs₂ _ => hrest types s₂ (henv.grow (hs₁.trans hs₂))
      · exact keeps_throw_bind

theorem keeps_topAtoms {id : DefnId} (index : Nat) (hid : Known R n s.program id) :
    Keeps R n todo todo (topAtoms id index) s fun as s' => ArgsFit R n s'.program as := by
  unfold topAtoms
  refine keeps_get.bind fun s₁ s₂ _ hget => ?_
  rw [hget.1, hget.2]
  dsimp only
  split
  · exact keeps_broken
  refine .of_sound fun hs => ?_
  refine (keeps_mapM (C := fun s' a => ArgsFit R n s'.program [a])
    (fun hs ha => Fits.grow ha hs) fun x _ s₃ hs₃ => ?_).mono fun as s' _ has => ?_
  · refine (keeps_freshSite _).bind fun site s₄ hs₄ _ => .pure ?_
    refine argsFit_of (fun t ht => ?_) fun a ha r hr => ?_
    · cases List.mem_singleton.mp ht
    obtain rfl := List.mem_singleton.mp ha
    cases hr
    refine Known.grow ?_ (hs₃.trans hs₄)
    split
    · rename_i e he
      obtain ⟨d, hd, hbody⟩ := Option.map_eq_some_iff.mp he
      have hlinked := hs.linked hid hd
      rw [hbody] at hlinked
      cases himpl : e.impl with
      | none => exact hid
      | some i => exact hlinked.refs i (Option.mem_toList.mpr himpl)
    · exact hid
  · refine argsFit_of (fun t ht => (has _ ht).below t (.head _)) fun a ha r hr => ?_
    exact (has a ha).refs r (List.mem_filterMap.mpr ⟨a, .head _, hr⟩)

theorem keeps_atom {a : Atom} (henv : EnvFits R n s.program env)
    (ha : ∀ r, a.defn? = some r → Known R n s.program r) :
    Keeps R n todo todo (atom env a) s fun as s' => ArgsFit R n s'.program as := by
  cases a with
  | temp t =>
      unfold atom
      dsimp only
      split
      · rename_i as has
        exact .pure (henv _ (mem_of_lookup has))
      · exact keeps_broken
  | lit l => exact .pure (argsFit_lits [l])
  | top id index site => exact keeps_topAtoms index (ha id rfl)

theorem keeps_atoms {as : List Atom} (henv : EnvFits R n s.program env)
    (has : ∀ r ∈ as.filterMap Atom.defn?, Known R n s.program r) :
    Keeps R n todo todo (atoms env as) s fun bs s' => ArgsFit R n s'.program bs := by
  refine (keeps_mapM (C := fun s' bs => ArgsFit R n s'.program bs)
    (fun hs ha => Fits.grow ha hs) fun a ha s₁ hs₁ => ?_).bind fun bss s₂ _ hbss =>
      .pure (argsFit_flatten hbss)
  exact keeps_atom (henv.grow hs₁) fun r hr =>
    (has r (List.mem_filterMap.mpr ⟨a, ha, hr⟩)).grow hs₁

theorem keeps_singleAtom {a : Atom} (henv : EnvFits R n s.program env)
    (ha : ∀ r, a.defn? = some r → Known R n s.program r) :
    Keeps R n todo todo (singleAtom env a) s fun b s' => ArgsFit R n s'.program [b] := by
  unfold singleAtom
  refine (keeps_atom henv ha).bind fun bs s₁ _ hbs => ?_
  split
  · exact .pure hbs
  · exact keeps_broken

theorem keeps_recorded {α : Type} (inst : Option α) (d : Defect) :
    Keeps R n todo todo (recorded inst d) s fun _ _ => True := by
  cases inst with
  | none => exact keeps_broken
  | some i => exact .pure trivial

/-! ### Code -/

theorem keeps_call {c : BlockCall} (henv : EnvFits R n s.program env)
    (hc : Linked R n s.program [c] (Tail.call c).refs) :
    Keeps R n todo todo (call env c) s fun c' s' => TailFits R n s'.program (.call c') := by
  unfold call
  refine (keeps_atoms henv fun r hr => hc.refs r (List.mem_append_left _ hr)).bind
    fun args s₁ hs₁ hargs => ?_
  refine (keeps_recorded _ _).bind fun inst s₂ hs₂ _ => ?_
  refine (keeps_blockTypeOf _).bind fun type s₃ hs₃ _ => .pure ?_
  have hs := hs₂.trans hs₃
  refine ArgsFit.tail (Fits.grow hargs hs) (fun id hid => ?_) fun c' hc' => ?_
  · cases hid
    exact (hc.refs c.block (List.mem_append_right _ (.head _))).grow (hs₁.trans hs)
  · cases hc'
    exact (hs₁.trans hs).block (hc.calls c (.head _))

theorem keeps_tail {t : Tail} (henv : EnvFits R n s.program env)
    (ht : Linked R n s.program t.call?.toList t.refs) :
    Keeps R n todo todo (tail env t) s fun t' s' => TailFits R n s'.program t' := by
  have hrefs : ∀ r ∈ t.atoms.filterMap Atom.defn?, Known R n s.program r :=
    fun r hr => ht.refs r (List.mem_append_left _ hr)
  cases t with
  | ret args =>
      exact (keeps_atoms henv hrefs).bind fun as s₁ _ has => .pure (ArgsFit.plain has rfl)
  | call c => exact (keeps_call henv ht).bind fun c' s₁ _ hc' => .pure hc'
  | prim q args inst =>
      refine (keeps_atoms henv hrefs).bind fun as s₁ _ has => ?_
      refine (keeps_wideAccess q.op).bind fun r s₂ hs₂ hr => ?_
      split
      · rename_i id type
        obtain ⟨hid, hb⟩ := hr id type rfl
        refine .pure (ArgsFit.tail (Fits.grow has hs₂) (fun i hi => ?_) fun c hc => ?_)
        · cases hi
          exact hid
        · cases hc
          exact hb
      · refine (keeps_wordPrim q).bind fun q' s₃ hs₃ _ => .pure ?_
        exact ArgsFit.plain (Fits.grow has (hs₂.trans hs₃)) rfl
  | alloc k args inst =>
      refine (keeps_atoms henv hrefs).bind fun as s₁ hs₁ has => ?_
      refine (keeps_recorded _ _).bind fun inst' s₂ hs₂ _ => ?_
      refine (keeps_allocTypeOf _).bind fun type s₃ hs₃ _ => .pure ?_
      have hs := hs₂.trans hs₃
      refine ArgsFit.tail (Fits.grow has hs) (fun i hi => ?_) fun c hc => nomatch hc
      cases hi
      exact (ht.refs k (List.mem_append_right _ (.head _))).grow (hs₁.trans hs)
  | data k args inst =>
      unfold tail
      dsimp only
      split
      · exact .pure (ArgsFit.nil.plain rfl)
      refine (keeps_atoms henv hrefs).bind fun as s₁ _ has => ?_
      refine (keeps_recorded _ _).bind fun inst' s₂ hs₂ _ => ?_
      refine (keeps_allocTypeOf _).bind fun type s₃ hs₃ _ => .pure ?_
      exact ArgsFit.plain (Fits.grow has (hs₂.trans hs₃)) rfl
  | enter fn args =>
      have hfn (r : DefnId) (hr : fn.defn? = some r) : Known R n s.program r :=
        hrefs r (List.mem_filterMap.mpr ⟨fn, .head _, hr⟩)
      have hargs (r : DefnId) (hr : r ∈ args.filterMap Atom.defn?) : Known R n s.program r := by
        obtain ⟨a, ha, har⟩ := List.mem_filterMap.mp hr
        exact hrefs r (List.mem_filterMap.mpr ⟨a, .tail _ ha, har⟩)
      refine (keeps_singleAtom henv hfn).bind fun f s₁ hs₁ hf => ?_
      refine (keeps_atoms (henv.grow hs₁) fun r hr => (hargs r hr).grow hs₁).bind
        fun as s₂ hs₂ has => .pure ?_
      exact ArgsFit.plain (ArgsFit.append (Fits.grow hf hs₂) has) rfl
  | sel k field arg inst => exact keeps_broken

theorem keeps_selection {vs : List Temp} {k : Cfun} {field : Nat} {arg : Atom} {inst : AllocType}
    {next : Code} (henv : EnvFits R n s.program env)
    (harg : ∀ r, arg.defn? = some r → Known R n s.program r) (hnext : CodeFits R n s.program next) :
    Keeps R n todo todo (selection env vs k field arg inst next) s fun c s' =>
      CodeFits R n s'.program c := by
  unfold selection
  refine (keeps_allocTypeOf _).bind fun type s₁ hs₁ _ => ?_
  refine (keeps_repsOfAll _).bind fun before s₂ hs₂ _ => ?_
  refine (keeps_repsOf _).bind fun reps s₃ hs₃ _ => ?_
  have hs := (hs₁.trans hs₂).trans hs₃
  dsimp only
  split
  · exact keeps_throw_bind
  split
  · exact .pure (Fits.grow hnext hs)
  refine (keeps_singleAtom (henv.grow hs) fun r hr => (harg r hr).grow hs).bind
    fun a s₄ hs₄ ha => .pure ?_
  have hnext := Fits.grow hnext (hs.trans hs₄)
  clear hs₁ hs₂ hs₃ hs hs₄
  generalize vs.zipIdx = xs
  induction xs with
  | nil => exact hnext
  | cons x xs ih => exact TailFits.bind (ArgsFit.plain ha rfl) ih

theorem keeps_done {t : Tail} (henv : EnvFits R n s.program env)
    (ht : Linked R n s.program t.call?.toList t.refs) :
    Keeps R n todo todo (done env t) s fun c s' => CodeFits R n s'.program c := by
  cases t with
  | sel k field arg inst =>
      have harg (r : DefnId) (hr : arg.defn? = some r) : Known R n s.program r := by
        refine ht.refs r (List.mem_append_left _ (List.mem_filterMap.mpr ⟨arg, .head _, hr⟩))
      unfold done
      dsimp only
      refine (keeps_recorded _ _).bind fun inst s₁ hs₁ _ => ?_
      refine (keeps_repsOf _).bind fun types s₂ hs₂ _ => ?_
      refine (keeps_freshTemps types).bind fun vs s₃ hs₃ hvs => ?_
      have hs := (hs₁.trans hs₂).trans hs₃
      split
      · refine (keeps_allocTypeOf _).bind fun type s₄ hs₄ _ => ?_
        refine (keeps_repsOfAll _).bind fun before s₅ hs₅ _ => ?_
        have hs := hs.trans (hs₄.trans hs₅)
        refine (keeps_singleAtom (henv.grow hs) fun r hr => (harg r hr).grow hs).bind
          fun a s₆ _ ha => .pure (ArgsFit.plain ha rfl)
      · refine keeps_selection (henv.grow hs) (fun r hr => (harg r hr).grow hs) ?_
        exact ArgsFit.plain (t := .ret _) (argsFit_temps hvs) rfl
  | _ => exact (keeps_tail henv ht).bind fun t' s₁ _ ht' => .pure ht'

theorem keeps_code {c : Code} (henv : EnvFits R n s.program env)
    (hc : Linked R n s.program c.allCalls c.refs) :
    Keeps R n todo todo (code env c) s fun c' s' => CodeFits R n s'.program c' := by
  induction c generalizing env s with
  | bind vars t next ih =>
      have htail := hc.left
      have hnext := hc.right
      have hplain : Keeps R n todo todo (do
          let t ← tail env t
          let r ← bindTemps env vars
          return .bind r.1 t (← code r.2 next)) s fun c' s' => CodeFits R n s'.program c' := by
        refine (keeps_tail henv htail).bind fun t' s₁ hs₁ ht' => ?_
        refine (keeps_bindTemps (henv.grow hs₁)).bind fun r s₂ hs₂ hr => ?_
        obtain ⟨vs, env'⟩ := r
        obtain ⟨-, henv'⟩ := hr
        refine (ih henv' (hnext.grow (hs₁.trans hs₂))).bind fun next' s₃ hs₃ hnext' => .pure ?_
        exact TailFits.bind (Fits.grow ht' (hs₂.trans hs₃)) hnext'
      cases t with
      | sel k field arg inst =>
          have harg (r : DefnId) (hr : arg.defn? = some r) : Known R n s.program r :=
            htail.refs r (List.mem_append_left _ (List.mem_filterMap.mpr ⟨arg, .head _, hr⟩))
          unfold code
          refine (keeps_recorded _ _).bind fun inst s₁ hs₁ _ => ?_
          refine (keeps_bindTemps (henv.grow hs₁)).bind fun r s₂ hs₂ hr => ?_
          obtain ⟨vs, env'⟩ := r
          obtain ⟨-, henv'⟩ := hr
          refine (ih henv' (hnext.grow (hs₁.trans hs₂))).bind fun next' s₃ hs₃ hnext' => ?_
          have hs := (hs₁.trans hs₂).trans hs₃
          exact keeps_selection (henv'.grow hs₃) (fun r hr => (harg r hr).grow hs) hnext'
      | _ => exact hplain
  | done t => exact keeps_done henv hc
  | branch cond c d =>
      have hcond (r : DefnId) (hr : cond.defn? = some r) : Known R n s.program r :=
        hc.refs r (List.mem_append_left _ (List.mem_append_left _ (Option.mem_toList.mpr hr)))
      have hleft : Linked R n s.program [c] (Tail.call c).refs := by
        refine ⟨fun x hx => hc.calls x ?_, fun r hr => hc.refs r ?_⟩
        · exact List.mem_singleton.mp hx ▸ .head _
        · exact List.mem_append_left _ (List.mem_append_right _ hr)
      have hright : Linked R n s.program [d] (Tail.call d).refs :=
        ⟨fun x hx => hc.calls x (.tail _ hx), fun r hr => hc.refs r (List.mem_append_right _ hr)⟩
      refine (keeps_singleAtom henv hcond).bind fun a s₁ hs₁ ha => ?_
      refine (keeps_call (henv.grow hs₁) (hleft.grow hs₁)).bind fun c' s₂ hs₂ hc' => ?_
      have hs := hs₁.trans hs₂
      refine (keeps_call (henv.grow hs) (hright.grow hs)).bind fun d' s₃ hs₃ hd' => .pure ?_
      have hcalls : Fits R n s₃.program _ _ _ := Fits.append (Fits.grow hc' hs₃) hd'
      refine ⟨⟨hcalls.calls, fun r hr => ?_⟩, fun t ht => ?_⟩
      · rcases List.mem_append.mp hr with hr | hr
        · rcases List.mem_append.mp hr with hr | hr
          · exact (Fits.grow ha (hs₂.trans hs₃)).refs r
              (List.mem_filterMap.mpr ⟨a, .head _, Option.mem_toList.mp hr⟩)
          · exact hcalls.refs r (List.mem_append_left _ hr)
        · exact hcalls.refs r (List.mem_append_right _ hr)
      · rcases List.mem_cons.mp ht with rfl | ht
        · exact (Fits.grow ha (hs₂.trans hs₃)).below t (.head _)
        · exact hcalls.below t ht
  | case scrut alts default =>
      have hscrut (r : DefnId) (hr : scrut.defn? = some r) : Known R n s.program r :=
        hc.refs r (List.mem_append_left _ (Option.mem_toList.mpr hr))
      have hcalls {c : BlockCall} (h : c ∈ (Code.case scrut alts default).calls) :
          Linked R n s.program [c] (Tail.call c).refs := by
        refine ⟨fun x hx => hc.calls x ?_, fun r hr => hc.refs r ?_⟩
        · exact List.mem_singleton.mp hx ▸ h
        · exact List.mem_append_right _ (List.mem_flatMap.mpr ⟨c, h, hr⟩)
      have halt {x : Cfun × BlockCall} (h : x ∈ alts) : x.2 ∈ (Code.case scrut alts default).calls :=
        List.mem_append_left _ (List.mem_map_of_mem h)
      unfold code
      refine (keeps_atom henv hscrut).bind fun as s₁ hs₁ has => ?_
      split
      · exact (keeps_call (henv.grow hs₁) ((hcalls (halt (.head _))).grow hs₁)).bind
          fun c' s₂ _ hc' => .pure hc'
      · refine (keeps_call (henv.grow hs₁) (Linked.grow (hcalls ?_) hs₁)).bind
          fun c' s₂ _ hc' => .pure hc'
        exact List.mem_append_right _ (.head _)
      · exact keeps_broken
      · rename_i a rest
        refine (keeps_mapM (C := fun s' (x : Cfun × BlockCall) => TailFits R n s'.program (.call x.2))
          (fun hs ha => Fits.grow ha hs) fun x hx s₂ hs₂ => ?_).bind fun alts' s₂ hs₂ halts' => ?_
        · have hs := hs₁.trans hs₂
          exact (keeps_call (henv.grow hs) ((hcalls (halt hx)).grow hs)).bind
            fun c' s₃ _ hc' => .pure hc'
        have hs := hs₁.trans hs₂
        have ha : ArgsFit R n s₁.program [a] :=
          ArgsFit.subset has (List.cons_subset.mpr ⟨.head _, List.nil_subset _⟩)
        cases default with
        | none =>
            refine Keeps.bind (Keeps.pure (Q := fun r s' => r = none ∧ s' = s₂) ⟨rfl, rfl⟩) ?_
            rintro _ _ - ⟨rfl, rfl⟩
            refine .pure (codeFits_case (Fits.grow ha hs₂) fun c hc => ?_)
            rcases List.mem_append.mp hc with hc | hc
            · obtain ⟨x, hx, rfl⟩ := List.mem_map.mp hc
              exact halts' x hx
            · cases hc
        | some c =>
            have hmap : Option.mapM (call env) (some c) = call env c >>= fun c => pure (some c) := rfl
            rw [hmap, bind_assoc]
            refine (keeps_call (henv.grow hs) (Linked.grow (hcalls ?_) hs)).bind
              fun c' s₃ hs₃ hc' => ?_
            · exact List.mem_append_right _ (.head _)
            rw [pure_bind]
            refine .pure (codeFits_case (Fits.grow ha (hs₂.trans hs₃)) fun x hx => ?_)
            rcases List.mem_append.mp hx with hx | hx
            · obtain ⟨y, hy, rfl⟩ := List.mem_map.mp hx
              exact Fits.grow (halts' y hy) hs₃
            · obtain rfl := List.mem_singleton.mp hx
              exact hc'

/-- A copy of code with new parameters, and the types of temporaries with those of the copy. -/
def withParams (p : Program) (params : List Temp) (c : Code) : Code × TempTypes :=
  c.copy (Replacement.extend [] params ((p.temps.freshLike params).1.map .temp))
    (p.temps.freshLike params).2

theorem codeFits_withParams {p : Program} {c : Code} (hc : CodeFits R n p c) (params : List Temp) :
    p.temps.size ≤ (withParams p params c).2.size ∧
      CodeFits R n { p with temps := (withParams p params c).2 } (withParams p params c).1 := by
  obtain ⟨hsize, hfresh⟩ := freshLike_spec p.temps params
  have hle : p.temps.size ≤ (p.temps.freshLike params).2.size := by omega
  have hnil : Below ([] : Replacement) p.temps.size := fun _ _ h => nomatch h
  have hbelow := hnil.extend params params.length
  rw [← hfresh, ← hsize] at hbelow
  have honly : TempsOnly ([] : Replacement) := fun _ _ h => nomatch h
  obtain ⟨hrefs, hcalls⟩ := refs_copy (honly.extend params (p.temps.freshLike params).1) c
    (p.temps.freshLike params).2
  refine ⟨Nat.le_trans hle (le_size_copy c _ _), ⟨fun x hx => ?_, fun r hr => ?_⟩,
    atomsBelow_copy (hc.below.mono hle) hbelow⟩
  · have hmem : x.block ∈ (withParams p params c).1.allCalls.map BlockCall.block :=
      List.mem_map_of_mem hx
    obtain ⟨y, hy, heq⟩ := List.mem_map.mp (hcalls ▸ hmem)
    obtain ⟨b, hb⟩ := hc.calls y hy
    exact ⟨b, heq ▸ hb⟩
  · exact hc.refs r (hrefs ▸ hr)

/-- Code of several steps is moved into a block of its own. -/
theorem keeps_tailOf {c : Code} {params : List Temp} (name : String) (rng : Ty)
    (hc : CodeFits R n s.program c) (hparams : ∀ v ∈ params, v < s.program.temps.size) :
    Keeps R n todo todo (tailOf c name params rng) s fun t s' => TailFits R n s'.program t := by
  obtain ⟨hle, hcopy⟩ := codeFits_withParams hc params
  have hblock : Keeps R n todo todo (onProgram fun p =>
      let fresh := (p.temps.freshLike params).1
      let copy := c.copy (Replacement.extend [] params (fresh.map .temp)) (p.temps.freshLike params).2
      let type : BlockType := ⟨[], .tuple (fresh.filterMap copy.2.typeOf), rng⟩
      ((Block.typed fresh (some copy.1) type, type), { p with temps := copy.2 })) s fun r s' =>
        BodyFits R n s'.program (.block r.1) := by
    refine keeps_of_calm fun r s' hy => ?_
    obtain ⟨rfl, rfl⟩ := yields_onProgram hy
    exact ⟨⟨rfl, rfl, hle, rfl, rfl⟩, hcopy⟩
  have hcall (r : Block × BlockType) (s₁ : State) (hs₁ : Grows s.program s₁.program)
      (hb : BodyFits R n s₁.program (.block r.1)) : Keeps R n todo todo (do
        let id ← addBuiltin (name ++ "_body") (.block r.1)
        return .call ⟨id, params.map .temp, some r.2⟩) s₁ fun t s' => TailFits R n s'.program t := by
    refine (keeps_addBlock _ hb).bind fun id s₂ hs₂ hadd => .pure ?_
    obtain ⟨hid, hblock⟩ := hadd
    refine ArgsFit.tail (argsFit_temps fun v hv => Nat.lt_of_lt_of_le (hparams v hv)
      (Nat.le_trans hs₁.temps hs₂.temps)) (fun i hi => ?_) fun c hc => ?_
    · cases hi
      exact hid
    · cases hc
      exact hblock
  cases c with
  | done t => exact .pure hc
  | _ => exact hblock.bind hcall

/-! ### Definitions -/

/-- Neither the definition nor the body is a block. -/
theorem neither_block {p : Program} {id : DefnId} {d : Defn} {old body : DefnBody}
    (hd : p.defns[id]? = some d) (hbody : d.body = old) (hold : ∀ b, old ≠ .block b)
    (hnew : ∀ b, body ≠ .block b) : (∃ b, p.block id = .ok b) ↔ ∃ b, body = .block b := by
  refine iff_of_false ?_ fun ⟨b, hb⟩ => hnew b hb
  rintro ⟨b, hb⟩
  obtain ⟨e, he, heq⟩ := exists_of_block hb
  cases hd.symm.trans he
  exact hold b (hbody.symm.trans heq)

theorem keeps_header {id : DefnId} (hid : Known R n s.program id) (htodo : id ∈ todo) :
    Keeps R n todo todo (header id) s fun _ _ => True := by
  have hnote (x : DefnId × List (List Ty)) (s : State) : Keeps R n todo todo
      (modify fun s => { s with tops := x :: s.tops } : TransM PUnit) s fun _ _ => True := by
    refine keeps_of_calm fun _ s' hy => ?_
    obtain rfl := yields_modify.mp hy
    exact ⟨⟨rfl, rfl, Nat.le_refl _, rfl, rfl⟩, trivial⟩
  unfold header
  refine keeps_get.bind fun s₁ s₂ _ ⟨h₁, h₂⟩ => ?_
  rw [h₁, h₂]
  dsimp only
  cases hd : s.program.defns[id]? with
  | none => exact keeps_broken
  | some d =>
  dsimp only
  cases hbody : d.body with
  | block b => exact .pure trivial
  | closure k => exact .pure trivial
  | top t =>
      exact Keeps.bind (keeps_mapM (C := fun _ _ => True) (fun _ _ => trivial)
        fun _ _ _ _ => keeps_repsOf _) fun values s₃ _ _ => hnote _ _
  | external e =>
      refine (keeps_repsOf _).bind fun types s₃ hs₃ _ => ?_
      refine (hnote _ _).bind fun _ s₄ hs₄ _ => ?_
      refine (keeps_generate d e).bind fun r s₅ hs₅ hr => ?_
      cases r with
      | none => exact .pure trivial
      | some impl =>
      refine (keeps_checkImpl d e impl types).bind fun _ s₆ hs₆ _ => ?_
      have hs := ((hs₃.trans hs₄).trans hs₅).trans hs₆
      refine keeps_setBody (hid.grow hs).1 ?_ ⟨(fun _ hc => nomatch hc), fun i hi => ?_⟩
        (absurd htodo) fun j hj _ => hj
      · rw [hs.blocks hid.1]
        exact neither_block hd hbody (by rintro _ ⟨⟩) (by rintro _ ⟨⟩)
      · obtain rfl := List.mem_singleton.mp hi
        exact (hr i rfl).grow hs₆

theorem keeps_presentTail {t : Option Tail} (henv : EnvFits R n s.program env)
    (ht : ∀ u, t = some u → Linked R n s.program u.call?.toList u.refs) :
    Keeps R n todo todo (presentTail env t) s fun c s' => CodeFits R n s'.program c := by
  cases t with
  | none => exact keeps_broken
  | some u => exact keeps_done henv (ht u rfl)

/-- After the change of a definition, one less is to be done. -/
theorem keeps_body {id : DefnId} (hid : Known R n s.program id) :
    Keeps R n (id :: todo) todo (body id) s fun _ _ => True := by
  have hrest : ∀ j ∈ id :: todo, j ≠ id → j ∈ todo := by
    intro j hj hne
    exact (List.mem_cons.mp hj).resolve_left hne
  have hnil : EnvFits R n s.program [] := List.forall_mem_nil _
  refine .of_sound fun hs => ?_
  unfold body
  refine keeps_get.bind fun s₁ s₂ _ hget => ?_
  rw [hget.1, hget.2]
  dsimp only
  cases hd : s.program.defns[id]? with
  | none => exact keeps_broken
  | some d =>
  have hlinked := hs.linked hid hd
  dsimp only
  cases hbody : d.body with
  | block b =>
      rw [hbody] at hlinked
      refine (keeps_bindTemps hnil).bind fun r s₃ hs₃ hr => ?_
      obtain ⟨params, env⟩ := r
      obtain ⟨-, henv⟩ := hr
      dsimp only
      cases hc : b.body with
      | none => exact keeps_broken
      | some c =>
      rw [DefnBody.calls, DefnBody.refs, hc] at hlinked
      refine (keeps_code henv (hlinked.grow hs₃)).bind fun c' s₄ hs₄ hc' => ?_
      refine (keeps_recorded _ _).bind fun type s₅ hs₅ _ => ?_
      refine (keeps_blockTypeOf _).bind fun type' s₆ hs₆ _ => ?_
      have hfit := Fits.grow hc' (hs₅.trans hs₆)
      have hs' := (hs₃.trans hs₄).trans (hs₅.trans hs₆)
      refine keeps_setBody (hid.grow hs').1 ?_ hfit.toLinked (fun _ => hfit.below) hrest
      rw [hs'.blocks hid.1]
      exact iff_of_true ⟨b, block_eq hd hbody⟩ ⟨_, rfl⟩
  | closure k =>
      rw [hbody, DefnBody.calls, DefnBody.refs] at hlinked
      refine (keeps_bindTemps hnil).bind fun r s₃ hs₃ hr => ?_
      obtain ⟨params, env⟩ := r
      obtain ⟨hparams, henv⟩ := hr
      refine (keeps_bindTemps henv).bind fun r s₄ hs₄ hr => ?_
      obtain ⟨args, env'⟩ := r
      obtain ⟨hargs, henv'⟩ := hr
      refine (keeps_recorded _ _).bind fun type s₅ hs₅ _ => ?_
      refine (keeps_allocTypeOf _).bind fun type' s₆ hs₆ _ => ?_
      have hs₅₆ := hs₅.trans hs₆
      have hs' := (hs₃.trans hs₄).trans hs₅₆
      dsimp only
      refine (keeps_presentTail (henv'.grow hs₅₆) fun u hu => ?_).bind fun c s₇ hs₇ hc => ?_
      · rw [hu] at hlinked
        exact hlinked.grow hs'
      refine (keeps_tailOf d.name _ hc fun v hv => ?_).bind fun t s₈ hs₈ ht => ?_
      · rcases List.mem_append.mp hv with hv | hv
        · exact Nat.lt_of_lt_of_le (hparams v hv) (hs₄.trans (hs₅₆.trans hs₇)).temps
        · exact Nat.lt_of_lt_of_le (hargs v hv) (hs₅₆.trans hs₇).temps
      have hs' := (hs'.trans hs₇).trans hs₈
      refine keeps_setBody (hid.grow hs').1 ?_ ht.toLinked (fun _ => ht.below) hrest
      rw [hs'.blocks hid.1]
      exact neither_block hd hbody (by rintro _ ⟨⟩) (by rintro _ ⟨⟩)
  | top t =>
      rw [hbody, DefnBody.calls, DefnBody.refs] at hlinked
      refine (keeps_presentTail hnil fun u hu => ?_).bind fun c s₃ hs₃ hc => ?_
      · rw [hu] at hlinked
        exact hlinked
      refine (keeps_tailOf d.name _ hc fun _ hv => absurd hv List.not_mem_nil).bind fun t' s₄ hs₄ ht => ?_
      have hs' := hs₃.trans hs₄
      refine keeps_setBody (hid.grow hs').1 ?_ ht.toLinked (fun _ => ht.below) hrest
      rw [hs'.blocks hid.1]
      exact neither_block hd hbody (by rintro _ ⟨⟩) (by rintro _ ⟨⟩)
  | external e =>
      rw [hbody] at hlinked
      have hnone : ∀ as, as = ([] : List Atom) → AtomsBelow s.program.temps.size as := by
        rintro _ rfl _ ht
        cases ht
      dsimp only
      split
      · exact keeps_setBody hid.1 (neither_block hd hbody (by rintro _ ⟨⟩) (by rintro _ ⟨⟩)) hlinked
          (fun _ => hnone _ rfl) hrest
      · intro hs _ s' hy
        obtain ⟨-, rfl⟩ := yields_pure.mp hy
        refine ⟨.refl _, ⟨hs.whole, hs.size, hs.linked, fun {j e'} hj hnot he' => ?_, hs.wide, hs.impls⟩,
          trivial⟩
        by_cases hji : j = id
        · subst hji
          cases hd.symm.trans he'
          rw [hbody]
          exact hnone _ rfl
        · exact hs.below hj (fun hmem => hnot (hrest j hmem hji)) he'

theorem keeps_bodies {ids : List DefnId} (hids : ∀ id ∈ ids, Known R n s.program id) :
    Keeps R n ids [] (ids.forM body) s fun _ _ => True := by
  induction ids generalizing s with
  | nil => exact .pure trivial
  | cons id ids ih =>
      obtain ⟨hid, hids⟩ := List.forall_mem_cons.mp hids
      exact Keeps.bind (keeps_body hid) fun _ s₁ hs₁ _ => ih fun i hi => (hids i hi).grow hs₁

theorem keeps_transform (hR : ∀ id ∈ s.program.reachable, Known R n s.program id) :
    Keeps R n s.program.reachable [] transform s fun _ _ => True := by
  unfold transform
  refine keeps_get.bind fun s₁ s₂ _ ⟨h₁, h₂⟩ => ?_
  rw [h₁, h₂]
  refine Keeps.bind (keeps_forM fun id hid s₃ hs₃ => keeps_header ((hR id hid).grow hs₃) hid)
    fun _ s₃ hs₃ _ => keeps_bodies fun id hid => (hR id hid).grow hs₃

end Rep

open Mil.Rep

/-- A linked program is linked after a change of representation, and what can be reached reads only
temporaries that have been made. -/
theorem Program.Linked.represent {p q : Program} (h : p.Linked) {size : Int}
    (hq : p.represent size = (.ok (), q)) :
    q.Linked ∧ ∀ {id : DefnId} {d : Defn}, id ∈ q.reachable → q.defns[id]? = some d →
      AtomsBelow q.temps.size d.body.atoms := by
  unfold Program.represent at hq
  cases htable : TypeTable.new size with
  | error e =>
      rw [htable] at hq
      cases hq
  | ok table =>
  rw [htable] at hq
  dsimp only at hq
  generalize hrun : transform.run ⟨p, table, [], [], [], []⟩ = x at hq
  obtain ⟨r, s⟩ := x
  obtain ⟨rfl, rfl⟩ := Prod.mk.inj hq
  have hs : Yields transform ⟨p, table, [], [], [], []⟩ () s := hrun
  have hknown : ∀ id ∈ p.reachable, Known (· ∈ p.reachable) p.defns.size p id := fun id hid =>
    ⟨Program.lt_of_reachable hid, fun _ => hid⟩
  have hmem {id : DefnId} (hid : Known (· ∈ p.reachable) p.defns.size p id) : id ∈ p.reachable :=
    hid.2 hid.1
  have hstart : Sound (· ∈ p.reachable) p.defns.size p.reachable ⟨p, table, [], [], [], []⟩ := by
    refine ⟨h.whole, Nat.le_refl _, fun hid hd => ⟨h.calls (hmem hid) hd, fun r hr => ?_⟩,
      fun hid hnot _ => absurd (hmem hid) hnot, nofun, nofun⟩
    exact hknown r (h.refs (hmem hid) hd r hr)
  have hkeeps := keeps_transform (s := ⟨p, table, [], [], [], []⟩) hknown
  obtain ⟨hgrows, hsound, -⟩ := hkeeps hstart () s hs
  obtain ⟨hlinked, hwithin⟩ := Program.linked_of_closed (p := s.program)
    (A := Known (· ∈ p.reachable) p.defns.size s.program) (fun id hid => hid.1)
    (fun id hid => (hknown id (h.entries id (hgrows.entries ▸ hid))).grow hgrows)
    (fun hid hd => (hsound.linked hid hd).refs) (fun hid hd => (hsound.linked hid hd).calls) hsound.whole
  exact ⟨hlinked, fun {id d} hid hd => hsound.below (hwithin id hid) List.not_mem_nil hd⟩

/-! ### Lowered programs -/

/-- The program is a checked one, specialised and represented in words of the given size. -/
def Program.Lowered (size : Int) (q : Program) : Prop :=
  ∃ (file text : String) (names : List String) (p : Program) (log : FailureLog) (c : Typing.Checker)
    (q₀ : Program),
    (Program.parse file text >>= fun p => Compiler.addEntries p names) = .ok p ∧
    p.check.run ⟨p, log⟩ = (.ok (), c) ∧ c.log.entries = [] ∧ c.program.specialize = .ok q₀ ∧
    q₀.represent size = (.ok (), q)

namespace Program.Lowered

variable {q : Program} {size : Int}

theorem linked_below (h : q.Lowered size) : q.Linked ∧ ∀ {id : DefnId} {d : Defn},
    id ∈ q.reachable → q.defns[id]? = some d → AtomsBelow q.temps.size d.body.atoms := by
  obtain ⟨file, text, names, p, log, c, q₀, hload, hcheck, hlog, hspec, hrep⟩ := h
  have hcomplete := Typing.complete_of_check (Source.loaded_of_parse hload) hcheck hlog
  obtain ⟨s, hyields, rfl⟩ := Mono.exists_of_specialize hspec
  exact (Mono.linked_of_program hcomplete hyields).represent hrep

theorem linked (h : q.Lowered size) : q.Linked := h.linked_below.1

end Program.Lowered

/-- The program that a checked one is lowered to, if nothing stops it. -/
def loweredFrom (c : Typing.Checker) (size : Int) : Option Program := do
  let q₀ ← c.program.specialize.toOption
  match q₀.represent size with
  | (.ok (), q) => some q
  | _ => none

/-- The program that a text is lowered to, if nothing stops it. -/
def lowered (file text : String) (names : List String) (size : Int) : Option Program :=
  (Typing.accepted file text names).bind (loweredFrom · size)

theorem lowered_spec {file text : String} {names : List String} {size : Int} {q : Program}
    (h : lowered file text names size = some q) : q.Lowered size := by
  obtain ⟨c, hc, h⟩ := Option.bind_eq_some_iff.mp h
  obtain ⟨q₀, hq₀, h⟩ := Option.bind_eq_some_iff.mp h
  obtain ⟨p, hload, hcheck, hlog⟩ := Typing.accepted_spec hc
  split at h
  · rename_i q' hrep
    cases h
    refine ⟨file, text, names, p, .empty, c, q₀, hload, hcheck, hlog, ?_, hrep⟩
    cases hspec : c.program.specialize with
    | error e =>
        rw [hspec] at hq₀
        cases hq₀
    | ok q₁ =>
        rw [hspec] at hq₀
        cases hq₀
        rfl
  · cases h

end Mil
