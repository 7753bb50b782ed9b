import Mil.Proofs.Machine.Safety
import Mil.Proofs.Rtl.Compute
import Mil.Proofs.Rtl.WellFormed

/-!
How bodies are entered. Values are bound to temporaries whose registers show them: those that a tail
has left, those that a jump has copied to the parameters of a block, in two phases since operands may
be parameters themselves, or those that a function was called with. A closure finds what it stores in
its record.
-/

namespace Mil.Rtl

open Typing BuildM

variable {n : Nat} {call : String → List (Val n) → State n → List (Val n) → State n → Prop}

/-! ### Parts of definitions -/

/-- A tail whose operands are in scope, without memory and primitives that the program declares. -/
structure TailFit (cx : Setting) (fields : FieldLayout) (scope : List Temp) (t : Tail) (ρs : List Ty) :
    Prop where
  ok : TailOk cx fields t ρs
  inScope : InScope scope t.atoms
  builtin : t.Builtin

/-- A body whose operands are in scope and that binds nothing twice, without memory and primitives that
the program declares. -/
structure CodeFit (cx : Setting) (fields : FieldLayout) (scope : List Temp) (c : Code) (ρs : List Ty) :
    Prop where
  ok : CodeOk cx fields c ρs
  inScope : c.Scoped scope
  single : (scope ++ c.binders).Nodup
  builtin : ∀ t ∈ tails c, t.Builtin

section Parts

variable {cx : Setting} {fields : FieldLayout} {id : DefnId} {d : Defn}

theorem Setting.Plain.block (hcx : cx.Plain n fields) (hid : id ∈ cx.program.reachable)
    (hd : cx.program.defns[id]? = some d) {k : Block} (hk : d.body = .block k) :
    ∃ c τs ρs, k.body = some c ∧ k.declared = some (.ofLists τs ρs) ∧
      CodeFit cx fields k.params c ρs ∧ k.params.Nodup ∧
      ArgsHave (cx.program.wordContext fields) (k.params.map .temp) τs ∧
      blockResults cx.program.store k = ρs.length := by
  obtain ⟨c, τs, ρs, hc, hok, hdeclared, hparams, hlen⟩ := hcx.ready.block hid hd hk
  have hon := hcx.ready.words.onWords hid hd
  have hbuiltin := hcx.builtin hid hd
  rw [hk] at hon hbuiltin
  have hsingle := hon.single
  rw [DefnBody.inputs, DefnBody.binders, hc, Option.map_some, Option.getD_some] at hsingle
  rw [DefnBody.tails, hc, Option.map_some, Option.getD_some] at hbuiltin
  exact ⟨c, τs, ρs, hc, hdeclared, ⟨hok, hon.inScope c hc, hsingle, hbuiltin⟩,
    (List.nodup_append.mp hsingle).1, hparams, hlen⟩

theorem Setting.Plain.closure (hcx : cx.Plain n fields) (hid : id ∈ cx.program.reachable)
    (hd : cx.program.defns[id]? = some d) {k : Closure} (hk : d.body = .closure k) :
    ∃ t stored τs ρs, k.tail = some t ∧
      k.declared = some ⟨[], stored, .func (.tuple τs) (.tuple ρs)⟩ ∧
      TailFit cx fields (k.params ++ k.args) t ρs ∧ (k.params ++ k.args).Nodup ∧
      ArgsHave (cx.program.wordContext fields) (k.params.map .temp) stored ∧
      ArgsHave (cx.program.wordContext fields) (k.args.map .temp) τs := by
  obtain ⟨t, stored, τs, ρs, ht, hok, -, hdeclared, hparams, hargs⟩ := hcx.ready.closure hid hd hk
  have hon := hcx.ready.words.onWords hid hd
  have hbuiltin := hcx.builtin hid hd
  rw [hk] at hon hbuiltin
  rw [DefnBody.tails, ht] at hbuiltin
  exact ⟨t, stored, τs, ρs, ht, hdeclared, ⟨hok, hon.inScope t ht, hbuiltin t (.head _)⟩,
    (List.nodup_append.mp hon.single).1, hparams, hargs⟩

end Parts

/-! ### Temporaries that get values -/

section Binding

variable {p : Mil.Program} {fields : FieldLayout} {S : Symbols} {F : Builder} {heap : Heap n}
  {regs : Regs n} {env : Machine.Locals} {scope scope' : List Temp}

theorem Holds.subset (hsub : ∀ t ∈ scope', t ∈ scope) (h : Holds p fields S F heap regs env scope) :
    Holds p fields S F heap regs env scope' :=
  fun t ht => h t (hsub t ht)

theorem Holds.cons {t : Temp} {v : Value} {r : Reg} {τ : Ty} (hτ : p.atomType (.temp t) = some τ)
    (hv : CarriedHas p fields v τ) (hr : F.regs.lookup t = some r) (hshows : Shows S heap regs r v)
    (h : Holds p fields S F heap regs env scope) :
    Holds p fields S F heap regs ((t, v) :: env) (t :: scope) := by
  intro t' ht'
  by_cases ht : t' = t
  · subst ht
    exact ⟨τ, v, r, hτ, (lookup_cons_ite _ _ _ _).trans (if_pos rfl), hv, hr, hshows⟩
  · obtain ⟨τ', v', r', hτ', hv', hhas, hr', hshows'⟩ := h t' ((List.mem_cons.mp ht').resolve_left ht)
    exact ⟨τ', v', r', hτ', (lookup_cons_ite _ _ _ _).trans ((if_neg ht).trans hv'), hhas, hr', hshows'⟩

/-- Temporaries whose registers show values of their types are given these values. -/
theorem Holds.assign {ts : List Temp} {rs : List Reg} {vs : List Value} {τs : List Ty}
    (hτs : ArgsHave (p.wordContext fields) (ts.map .temp) τs)
    (hvs : List.Forall₂ (CarriedHas p fields) vs τs)
    (hrs : List.Forall₂ (fun t r => F.regs.lookup t = some r) ts rs)
    (hshows : List.Forall₂ (Shows S heap regs) rs vs) (h : Holds p fields S F heap regs env scope) :
    Holds p fields S F heap regs (Machine.assign env ts vs) (ts ++ scope) := by
  induction hrs generalizing vs τs env scope with
  | nil =>
      cases hshows
      exact h
  | @cons t r ts rs hr _ ih =>
      cases hshows with
      | cons hv hshows =>
          cases hτs with
          | cons hτ hτs =>
              cases hvs with
              | cons hhas hvs =>
                  obtain ⟨σ, hσ, rfl, -⟩ := hτ
                  rw [Machine.assign_cons]
                  refine (ih hτs hvs hshows (h.cons hσ hhas hr hv)).subset fun t' ht' => ?_
                  simp only [List.cons_append, List.mem_cons, List.mem_append] at ht' ⊢
                  tauto

end Binding

/-! ### Registers of temporaries -/

section Registers

variable {R : Rules} {D : List Node} {cx : Setting} {w : Nat} {F b b' : Builder} {ts : List Temp} {rs : List Reg}

/-- Different temporaries have different registers. -/
theorem nodup_regs (hF : F.Sound R D) (hts : ts.Nodup)
    (hrs : List.Forall₂ (fun t r => F.regs.lookup t = some r) ts rs) : rs.Nodup := by
  induction hrs with
  | nil => exact .nil
  | @cons t r ts rs hr hrest ih =>
      obtain ⟨ht, hts⟩ := List.nodup_cons.mp hts
      refine List.nodup_cons.mpr ⟨fun hmem => ht ?_, ih hts⟩
      obtain ⟨t', ht', hr'⟩ := Machine.exists_of_mem_right hrest hmem
      exact hF.own hr hr' ▸ ht'

/-- Registers that are taken are different, and none of them belongs to a temporary or was there
before. -/
theorem fresh_freshRegs (hb : b.Sound (lawful cx w) D) {k : Nat}
    (h : Builds cx (freshRegs k) b rs b') (hle : b'.Le F) :
    b'.current = b.current ∧ rs.Nodup ∧ ∀ r ∈ rs, ¬ Kept F b r ∧ b.nextReg ≤ r ∧ r < b'.nextReg := by
  unfold freshRegs at h
  generalize List.range k = ks at h
  induction ks generalizing b rs with
  | nil =>
      obtain ⟨rfl, rfl⟩ := Builds.mapM_nil_iff.mp h
      exact ⟨rfl, .nil, nofun⟩
  | cons k ks ih =>
      obtain ⟨r, rs', b₁, hr, hrs, rfl⟩ := Builds.mapM_cons_iff.mp h
      obtain ⟨hb₁, hle₁⟩ := (acts_freshReg (R := lawful cx w) (D := D) hr).sound hb
      obtain ⟨-, hle₂⟩ := (acts_mapM (R := lawful cx w) (D := D) (fun _ _ => acts_freshReg) hrs).1.sound hb₁
      obtain ⟨hcur, hnodup, hfresh⟩ := ih hb₁ hrs
      obtain ⟨rfl, rfl⟩ := Builds.freshReg_iff.mp hr
      refine ⟨hcur, List.nodup_cons.mpr ⟨fun hmem => ?_, hnodup⟩, fun r hr => ?_⟩
      · exact absurd (hfresh _ hmem).2.1 (Int.not_le.mpr (Int.lt_succ _))
      · rcases List.mem_cons.mp hr with rfl | hr
        · exact ⟨not_kept_nextReg hb (hle₂.trans hle), Int.le_refl _,
            Int.lt_of_lt_of_le (Int.lt_succ _) hle₂.nextReg⟩
        · obtain ⟨hkept, hge, hlt⟩ := hfresh r hr
          exact ⟨fun hr => hkept (hr.mono hle₁.nextReg), Int.le_trans hle₁.nextReg hge, hlt⟩

end Registers

/-! ### Jumps -/

section Jumps

variable {cx : Setting} {fields : FieldLayout} {w : Nat} {S : Symbols} {F b b' : Builder}
  {regs : Regs n} {s : State n}

variable (call) in
/-- A jump inside the function copies operands to the parameters of a block and goes on at its
node. -/
theorem exists_lands {R : Rules} {D D' : List Node} (hF : F.Sound R D') (hb : b.Sound (lawful cx w) D)
    {target : DefnId} {args : List Reg} {node : Node} {k : Block} {vals : List Value}
    (hlabel : b.labels.lookup target = some node) (hblock : cx.program.block target = .ok k)
    (hparams : k.params.Nodup) (hshows : List.Forall₂ (Shows S s.heap regs) args vals)
    (hkept : ∀ r ∈ args, Kept F b r) (h : Lands cx target args node b b') (hle : b'.Le F) :
    ∃ rs regs', List.Forall₂ (fun t r => F.regs.lookup t = some r) k.params rs ∧
      List.Forall₂ (Shows S s.heap regs') rs vals ∧
      ∀ xs s', Body call F.code node regs' s xs s' → Ends call F b regs s xs s' := by
  obtain ⟨hblock', hparams', hlen, hcopies, hout, hin, hend⟩ := h
  rename_i k' rs copies b₁ b₂ b₃ b₄
  obtain rfl : k' = k := Except.ok.inj (hblock'.symm.trans hblock)
  have hacts₁ := (acts_mapM (R := lawful cx w) (D := D) (fun _ _ => acts_regOf) hparams').1
  obtain ⟨hacts₂, hcount⟩ := acts_freshRegs (R := lawful cx w) (D := D) hcopies
  have hacts₃ := acts_forM (R := lawful cx w) (D := D) (fun _ _ => acts_move) hout
  have hacts₄ := acts_forM (R := lawful cx w) (D := D) (fun _ _ => acts_move) hin
  have hlabels := ((hacts₁.trans hacts₂).trans (hacts₃.trans hacts₄)).labels hlabel
  obtain ⟨hacts₅, -⟩ := acts_terminate (R := lawful cx w) (D := D) hend trivial fun s hs =>
    .inr ⟨target, List.mem_singleton.mp hs ▸ hlabels⟩
  obtain ⟨hb₁, hle₁⟩ := hacts₁.sound hb
  obtain ⟨hb₂, hle₂⟩ := hacts₂.sound hb₁
  obtain ⟨hb₃, hle₃⟩ := hacts₃.sound hb₂
  obtain ⟨hb₄, hle₄⟩ := hacts₄.sound hb₃
  obtain ⟨-, hle₅⟩ := hacts₅.sound hb₄
  have hle₄' := hle₅.trans hle
  have hle₃' := hle₄.trans hle₄'
  have hle₂' := hle₃.trans hle₃'
  have hrs : List.Forall₂ (fun t r => F.regs.lookup t = some r) k'.params rs :=
    (lookup_mapM hb hparams').imp fun _ _ ht => (hle₂.trans hle₂').regs ht
  obtain ⟨hcur, hnodup, hfresh⟩ := fresh_freshRegs hb₁ hcopies hle₂'
  obtain ⟨regs₃, hruns₃, hshows₃, -⟩ := runs_moves call hb₂ hnodup hcount
    (fun r hr hmem => (hfresh r hmem).1 ((hkept r hr).mono hle₁.nextReg)) hshows hout hle₃'
  have hapart : ∀ r ∈ copies, r ∉ rs := fun r hr hmem => by
    obtain ⟨t, -, ht⟩ := Machine.exists_of_mem_right hrs hmem
    exact (hfresh r hr).1 (.inr ⟨t, ht⟩)
  obtain ⟨regs₄, hruns₄, hshows₄, -⟩ := runs_moves call hb₃ (nodup_regs hF hparams hrs)
    (hlen.trans hcount.symm) hapart hshows₃ hin hle₄'
  have hsame : b₂.current = b.current := by
    rw [hcur, regs_mapM hparams']
  refine ⟨rs, regs₄, hrs, hshows₄, fun xs s' hbody => ?_⟩
  refine ((Runs.of_current hsame).trans (hruns₃.trans hruns₄)).ends fun node₄ hnode₄ => ?_
  exact .step (lookup_of_terminate hend hle hnode₄) .nop hbody

end Jumps

/-! ### Functions -/

section Functions

variable {cx : Setting} {fields : FieldLayout} {w : Nat} {S : Symbols} {F b b' : Builder}
  {regs : Regs n} {s s' : State n} {raw f : Function} {out : Program} {name : String}

theorem Made.calls (hmade : Made cx w F raw f) (hf : out.function? name = some f)
    {avs xs : List (Val n)} (hlen : avs.length = raw.params.length)
    (hbody : Body out.Calls F.code raw.entry (Regs.empty.assign raw.params avs) s xs s') :
    out.Calls name avs s xs s' := by
  have hraw := hmade.sound_raw
  rw [← hmade.code] at hbody
  have hswept := Function.body_removeDead (fun _ => trivial) hraw hbody
  have hfinal := Function.body_tunnel (hraw.removeDead fun _ => trivial) hswept
  rw [← hmade.final] at hfinal
  obtain ⟨fuel, hrun⟩ := hfinal.exists_run
  refine ⟨fuel, f, hf, ?_⟩
  unfold Program.call Function.enter?
  rw [hmade.like.params, if_pos hlen]
  exact hrun

variable (call) in
/-- What a closure stores is loaded from its record, one word after the other. -/
theorem runs_loads (hcx : cx.Plain n fields) {R : Rules} {D : List Node} (hF : F.Sound R D)
    (hb : b.Sound (lawful cx w) []) {record : Reg} {a i : Nat} {y : Val n} {xs : List (Val n)}
    {ts : List Temp} {vals : List Value} {u : Unit} (hrecord : regs record = some (.record a))
    (hfree : ∀ t, F.regs.lookup t ≠ some record) (hheap : s.heap[a]? = some (some y :: xs.map some))
    (hvals : List.Forall₂ (Encodes S s.heap) vals (xs.drop i)) (hts : ts.Nodup)
    (hlen : ts.length = vals.length) (h : Builds cx ((ts.zipIdx i).forM fun (t, i) => do
      let r ← regOf t
      loadWord record (1 + i) r) b u b') (hle : b'.Le F) :
    ∃ rs regs', List.Forall₂ (fun t r => F.regs.lookup t = some r) ts rs ∧
      Runs call F b b' regs s regs' s ∧ List.Forall₂ (Shows S s.heap regs') rs vals ∧
      ∀ r, r ∉ rs → regs' r = regs r := by
  induction ts generalizing b regs vals i with
  | nil =>
      rw [Builds.forM_nil_iff.mp h, List.length_eq_zero_iff.mp hlen.symm]
      exact ⟨[], regs, .nil, .of_current rfl, .nil, fun _ _ => rfl⟩
  | cons t ts ih =>
      cases vals with
      | nil => cases hlen
      | cons v vals =>
          obtain ⟨x, rest, hv, hrest, hdrop⟩ := List.forall₂_cons_left_iff.mp hvals
          have hx : xs[i]? = some x := by
            rw [← List.head?_drop, hdrop]
            rfl
          have hdrop' : xs.drop (i + 1) = rest := by
            rw [← List.tail_drop, hdrop]
            rfl
          rw [List.zipIdx_cons] at h
          obtain ⟨b₂, hfirst, h⟩ := Builds.forM_cons_iff.mp h
          obtain ⟨r, b₁, hr, hload⟩ := Builds.bind_iff.mp hfirst
          obtain ⟨hb₁, hle₁⟩ := (acts_regOf (R := lawful cx w) (D := []) hr).sound hb
          obtain ⟨hb₂, hle₂⟩ := (acts_loadWord (w := w) (D := []) hload).sound hb₁
          have hacts : Acts (lawful cx w) [] b₂ [] b' := by
            refine acts_forM (fun q _ {b b'} hq => ?_) h
            obtain ⟨r, b₁, hr, hload⟩ := Builds.bind_iff.mp hq
            exact (acts_regOf hr).trans (acts_loadWord hload)
          obtain ⟨-, hle₃⟩ := hacts.sound hb₂
          have hreg : F.regs.lookup t = some r := by
            refine (hle₂.trans (hle₃.trans hle)).regs ?_
            rcases Builds.regOf_iff.mp hr with ⟨hr, rfl⟩ | ⟨-, rfl, rfl⟩
            · exact hr
            · exact (lookup_cons_ite t t _ _).trans (if_pos rfl)
          have hcur : b₁.current = b.current := by
            rcases Builds.regOf_iff.mp hr with ⟨-, rfl⟩ | ⟨-, -, rfl⟩ <;> rfl
          have hne : record ≠ r := fun he => hfree t (he ▸ hreg)
          obtain ⟨ht, hts⟩ := List.nodup_cons.mp hts
          have hkept := (regs.set_of_ne x hne).trans hrecord
          obtain ⟨rs, regs', hrs, hruns, hshows, hsame⟩ := ih hb₂ hkept (hdrop' ▸ hrest) hts
            (Nat.succ.inj hlen) h
          have hnot : r ∉ rs := fun hmem => by
            obtain ⟨t', ht', hr'⟩ := Machine.exists_of_mem_right hrs hmem
            exact ht (hF.own hreg hr' ▸ ht')
          refine ⟨r :: rs, regs', .cons hreg hrs, ?_, .cons ⟨x, ?_, hv⟩ hshows, fun r' hr' => ?_⟩
          · have hfirst : Runs call F b₁ b₂ regs s (regs.set r x) s :=
              runs_loadWord hcx (i := i + 1) (by push_cast; omega) hrecord (load_field hheap hx) hload
                (hle₃.trans hle)
            exact (Runs.of_current hcur).trans (hfirst.trans hruns)
          · exact (hsame r hnot).trans (Regs.set_self _ _ _)
          · rw [List.mem_cons, not_or] at hr'
            exact (hsame r' hr'.2).trans (regs.set_of_ne x hr'.1)

variable (call) in
/-- A closure that is entered loads what it stores, and goes on with its tail. -/
theorem exists_opens (hcx : cx.Plain n fields) {R : Rules} {D : List Node} (hF : F.Sound R D)
    {k : Closure} {t : Tail} {stored τs ρs : List Ty} {s₀ : Symbols} (hopens : Opens cx k raw s₀ F)
    (ht : k.tail = some t) (hfit : TailFit cx fields (k.params ++ k.args) t ρs)
    (hnodup : (k.params ++ k.args).Nodup)
    (hparams : ArgsHave (cx.program.wordContext fields) (k.params.map .temp) stored)
    (hargs : ArgsHave (cx.program.wordContext fields) (k.args.map .temp) τs)
    {a : Nat} {y : Val n} {xs avs : List (Val n)} {fs vals : List Value}
    (hheap : s.heap[a]? = some (some y :: xs.map some)) (hxs : List.Forall₂ (Encodes S s.heap) fs xs)
    (hfs : List.Forall₂ (CarriedHas cx.program fields) fs stored)
    (havs : List.Forall₂ (Encodes S s.heap) vals avs)
    (hvals : List.Forall₂ (CarriedHas cx.program fields) vals τs) :
    ∃ b b' regs, Builds cx (tail (some t)) b () b' ∧ b'.Le F ∧ b.Sound (lawful cx ρs.length) [] ∧
      (∃ node, b.current = some node) ∧ Holds cx.program fields S F s.heap regs
        (Machine.assign (Machine.assign [] k.params fs) k.args vals) (k.params ++ k.args) ∧
      ∀ zs s', Ends call F b regs s zs s' →
        Body call F.code raw.entry (Regs.empty.assign raw.params (.record a :: avs)) s zs s' := by
  obtain ⟨args, b₂, b₄, b₅, hraw, hentry, hmap, hloads, htail, hle⟩ := hopens.parts
  rw [ht] at htail
  obtain ⟨hb₁, -⟩ := (Acts.of (.reg (R := lawful cx ρs.length) (D := []))).sound (sound_new s₀)
  obtain ⟨hacts₂, hcount⟩ := acts_mapM (R := lawful cx ρs.length) (D := []) (fun _ _ => acts_regOf) hmap
  obtain ⟨hb₂, hle₂⟩ := hacts₂.sound hb₁
  have hcur : b₂.current = none := by
    rw [regs_mapM hmap]
    rfl
  obtain ⟨hb₃, hle₃⟩ := Acts.sound (.step .node (.of (.start hcur))) hb₂
  have hacts₄ : Acts (lawful cx ρs.length) []
      { b₂ with nextNode := b₂.nextNode + 1, current := some b₂.nextNode } [] b₄ := by
    refine acts_forM (fun q _ {b b'} hq => ?_) hloads
    obtain ⟨r, b₁, hr, hload⟩ := Builds.bind_iff.mp hq
    exact (acts_regOf hr).trans (acts_loadWord hload)
  obtain ⟨hb₄, hle₄⟩ := hacts₄.sound hb₃
  obtain ⟨-, hle₅⟩ := (acts_tail (D := []) hcx.ready.words hfit.ok htail).1.sound hb₄
  have hle₄' := hle₅.trans hle
  have hle₂' := hle₃.trans (hle₄.trans hle₄')
  -- the register of the record belongs to no temporary
  have hfree : ∀ u, F.regs.lookup u ≠ some 1 := fun u hu =>
    nomatch (hle₂.trans hle₂').old hu (show (1 : Int) < 2 by decide)
  have hregs : List.Forall₂ (fun t r => F.regs.lookup t = some r) k.args args :=
    (lookup_mapM hb₁ hmap).imp fun _ _ hr => hle₂'.regs hr
  obtain ⟨hnodup₁, hnodup₂, hapart⟩ := List.nodup_append.mp hnodup
  have hrecord : Regs.empty.assign (1 :: args) (.record a :: avs) 1 = some (.record a) := by
    refine (Regs.assign_of_not_mem _ avs fun hmem => ?_).trans (Regs.set_self _ _ _)
    obtain ⟨u, -, hu⟩ := Machine.exists_of_mem_right hregs hmem
    exact hfree u hu
  have hshows : List.Forall₂ (Shows S s.heap (Regs.empty.assign (1 :: args) (.record a :: avs))) args vals := by
    refine shows_assign (nodup_regs hF hnodup₂ hregs) ?_ havs
    rw [hvals.length_eq, ← length_of_argsHave hargs, List.length_map, hcount]
  have hlen : k.params.length = fs.length := by
    rw [hfs.length_eq, ← length_of_argsHave hparams, List.length_map]
  obtain ⟨rs, regs, hrs, hruns, hloaded, hsame⟩ :=
    runs_loads call hcx hF hb₃ hrecord hfree hheap hxs hnodup₁ hlen hloads hle₄'
  have hold : List.Forall₂ (Shows S s.heap regs) args vals := by
    refine forall₂_shows_congr hshows fun r hr => hsame r fun hmem => ?_
    obtain ⟨u, hu, hur⟩ := Machine.exists_of_mem_right hregs hr
    obtain ⟨v, hv, hvr⟩ := Machine.exists_of_mem_right hrs hmem
    exact hapart v hv u hu (hF.own hvr hur)
  obtain ⟨node, hnode, hlead⟩ := hruns b₂.nextNode rfl
  refine ⟨b₄, b₅, regs, htail, hle, hb₄, ⟨node, hnode⟩, ?_, fun zs s' hends => ?_⟩
  · have hnone : Holds cx.program fields S F s.heap regs [] [] := fun u hu => nomatch hu
    refine ((hnone.assign hparams hfs hrs hloaded).assign hargs hvals hregs hold).subset fun u hu => ?_
    simp only [List.mem_append, List.not_mem_nil, or_false] at hu ⊢
    exact hu.symm
  · rw [hentry, hraw]
    exact hlead zs s' (hends node hnode)

end Functions

end Mil.Rtl
