import Mil.Proofs.Machine.Quiet

/-!
Regions of a program. A set of definitions that refer to nothing outside it is never left: whatever
the machine works on refers into the set, and every closure that it holds is of the set.
-/

namespace Mil

/-- Every closure in the value is of the set. -/
inductive Value.Within (R : DefnId → Prop) : Value → Prop
  | word (w : Word) : Within R (.word w)
  | flag (b : Bool) : Within R (.flag b)
  | closure {id : DefnId} {fields : List Value} (h : R id) (hfields : ∀ v ∈ fields, Within R v) :
      Within R (.closure id fields)
  | data {k : Cfun} {fields : List Value} (hfields : ∀ v ∈ fields, Within R v) :
      Within R (.data k fields)

theorem Value.within_of_lit {R : DefnId → Prop} {v : Value} (h : v.lit?.isSome = true) :
    v.Within R := by
  cases v with
  | word w => exact .word w
  | flag b => exact .flag b
  | closure => cases h
  | data => cases h

mutual

theorem Value.within_of_closureFree {R : DefnId → Prop} {v : Value} (h : v.closureFree = true) :
    v.Within R := by
  cases v with
  | word w => exact .word w
  | flag b => exact .flag b
  | closure i fields => cases h
  | data k fields => exact .data (Value.within_of_closureFrees h)
termination_by sizeOf v

theorem Value.within_of_closureFrees {R : DefnId → Prop} {vs : List Value}
    (h : Value.closureFrees vs = true) : ∀ v ∈ vs, v.Within R := by
  cases vs with
  | nil => exact nofun
  | cons v vs =>
      rw [Value.closureFrees, Bool.and_eq_true] at h
      exact List.forall_mem_cons.mpr ⟨within_of_closureFree h.1, within_of_closureFrees h.2⟩
termination_by sizeOf vs

end

namespace Machine

/-- Nothing has been replaced, and the definitions of `R` refer to nothing else. -/
structure Region (p : Program) (R : DefnId → Prop) : Prop where
  resolve : ∀ id, p.resolve id = id
  refs : ∀ {id : DefnId} {d : Defn}, R id → p.defns[id]? = some d → ∀ i ∈ d.body.refs, R i

/-- The temporaries have values of the region. -/
def LocalsWithin (R : DefnId → Prop) (env : Locals) : Prop :=
  ∀ t v, env.lookup t = some v → v.Within R

/-- The job is in the region. -/
def Job.Within (R : DefnId → Prop) : Job → Prop
  | .tail t env => (∀ i ∈ t.refs, R i) ∧ LocalsWithin R env
  | .code c env => (∀ i ∈ c.refs, R i) ∧ LocalsWithin R env

/-- What a job comes to is in the region. -/
def Move.Within (R : DefnId → Prop) : Move → Prop
  | .values vs => ∀ v ∈ vs, v.Within R
  | .job j => j.Within R
  | .bind _ t env next => (Job.tail t env).Within R ∧ ∀ i ∈ next.refs, R i

/-- The definitions of the region have values of the region. -/
def TopsWithin (R : DefnId → Prop) (T : Tops) : Prop :=
  ∀ i vs, R i → T.lookup i = some vs → ∀ v ∈ vs, v.Within R

section Region

variable {p : Program} {R : DefnId → Prop} {m m' : Machine} {env : Locals}

theorem LocalsWithin.nil (R : DefnId → Prop) : LocalsWithin R [] := fun _ _ h => nomatch h

theorem LocalsWithin.assign (h : LocalsWithin R env) (vars : List Temp) {vals : List Value}
    (hvals : ∀ v ∈ vals, v.Within R) : LocalsWithin R (assign env vars vals) := by
  intro t v hv
  rw [Machine.assign, List.lookup_append] at hv
  cases hlookup : (vars.zip vals).reverse.lookup t with
  | some v' =>
      rw [hlookup] at hv
      cases hv
      exact hvals v (List.of_mem_zip (List.mem_reverse.mp (mem_of_lookup hlookup))).2
  | none =>
      rw [hlookup] at hv
      exact h t v hv

/-- A reference of the region leads to a definition of the region. -/
theorem Region.topTarget (h : Region p R) {i id : DefnId} (hi : R i)
    (htarget : topTarget p m i = .ok id) : R id := by
  unfold Machine.topTarget at htarget
  dsimp only at htarget
  rw [h.resolve] at htarget
  split at htarget
  · rename_i d hd
    split at htarget
    · rename_i e he
      split at htarget
      · rename_i impl himpl
        cases htarget
        rw [h.resolve]
        refine h.refs hi hd impl ?_
        rw [he, DefnBody.refs, himpl]
        exact .head _
      · cases htarget
    · cases htarget
      exact hi
  · cases htarget
    exact hi

/-- A definition that an operand waits for is of the region. -/
theorem Region.errs_atom (h : Region p R) {a : Atom} (ha : ∀ i, a.defn? = some i → R i) :
    Errs (fun s => ∀ id pos t, s = .top id pos t → R id) (Machine.atom p m env a) := by
  have hhalt {α : Type} (e : Halt) : Errs (fun s => ∀ id pos t, s = .top id pos t → R id)
      (.error (.halt e) : Except Stall α) := by
    rintro s ⟨⟩ id pos t ⟨⟩
  unfold Machine.atom
  split
  · split
    · exact .ok _
    · exact hhalt _
  · exact .ok _
  · rename_i i index site
    intro s hs
    rcases Except.bind_eq_error.mp hs with hs | ⟨id, htarget, hs⟩
    · unfold Machine.topTarget at hs
      dsimp only at hs
      split at hs
      · split at hs
        · split at hs
          · cases hs
          · exact hhalt _ s hs
        · cases hs
      · cases hs
    · have hid := h.topTarget (ha i rfl) htarget
      rcases Except.bind_eq_error.mp hs with hs | ⟨vals, -, hs⟩
      · unfold topValues at hs
        split at hs
        · cases hs
        · split at hs
          · exact hhalt _ s hs
          · split at hs
            · split at hs
              · exact hhalt _ s hs
              · cases hs
                rintro id' pos t ⟨⟩
                exact hid
            · exact hhalt _ s hs
      · split at hs
        · cases hs
        · exact hhalt _ s hs

theorem Region.atom (h : Region p R) (htops : TopsWithin R m.tops) (henv : LocalsWithin R env)
    {a : Atom} (ha : ∀ i, a.defn? = some i → R i) {v : Value}
    (hv : Machine.atom p m env a = .ok v) : v.Within R := by
  cases a with
  | temp t =>
      unfold Machine.atom at hv
      dsimp only at hv
      split at hv
      · rename_i hlookup
        cases hv
        exact henv t v hlookup
      · cases hv
  | lit l =>
      cases hv
      cases l with
      | word w => exact .word w
      | flag b => exact .flag b
  | top i index site =>
      obtain ⟨id, vals, htarget, hlookup, hget⟩ := topValue_eq_ok.mp hv
      exact htops id vals (h.topTarget (ha i rfl) htarget) hlookup v (List.mem_of_getElem? hget)

theorem Region.atoms (h : Region p R) (htops : TopsWithin R m.tops) (henv : LocalsWithin R env)
    {as : List Atom} (has : ∀ i ∈ as.filterMap Atom.defn?, R i) {vs : List Value}
    (hvs : Machine.atoms p m env as = .ok vs) : ∀ v ∈ vs, v.Within R := by
  intro v hv
  obtain ⟨a, ha, hav⟩ := exists_of_mem_right (atoms_eq_ok.mp hvs) hv
  exact h.atom htops henv (fun i hi => has i (List.mem_filterMap.mpr ⟨a, ha, hi⟩)) hav

/-- The results of a primitive hold no closure. -/
theorem within_of_prim {q : Prim} {vals vs : List Value} (h : m.prim q vals = .ok (vs, m')) :
    ∀ v ∈ vs, v.Within R := by
  have hans : Answers True (fun _ => False) (fun r r₂ => Alongside q.op.leavesTrace m m r r₂ ∧
      ∀ v ∈ r.1, v.lit?.isSome = true) (orHalt (m.prim q vals)) (orHalt (m.prim q vals)) :=
    prim_answers (Value.looks_refl vals) rfl (fun _ => rfl) fun _ => rfl
  rw [h] at hans
  cases hans with
  | ok hr => exact fun v hv => Value.within_of_lit (hr.2 v hv)

/-- What an operation comes to. -/
def Effect.Within (R : DefnId → Prop) : Effect → Prop
  | .values vs => ∀ v ∈ vs, v.Within R
  | .body c env => ∀ c', c = some c' → (Job.code c' env).Within R
  | .tail t env => ∀ t', t = some t' → (Job.tail t' env).Within R

theorem Region.body (h : Region p R) {id : DefnId} {d : Defn} (hid : R id) (hd : p.defns[id]? = some d)
    {b : Block} (hb : d.body = .block b) {c : Code} (hc : b.body = some c) : ∀ i ∈ c.refs, R i := by
  intro i hi
  refine h.refs hid hd i ?_
  rw [hb, DefnBody.refs, hc]
  exact hi

theorem Region.block (h : Region p R) {id : DefnId} (hid : R id) {b : Block}
    (hb : p.block id = .ok b) {c : Code} (hc : b.body = some c) : ∀ i ∈ c.refs, R i := by
  obtain ⟨d, hd, hbody⟩ := exists_of_block hb
  exact h.body hid hd hbody hc

theorem Region.closure (h : Region p R) {id : DefnId} (hid : R id) {k : Closure}
    (hk : p.closure id = .ok k) {t : Tail} (ht : k.tail = some t) : ∀ i ∈ t.refs, R i := by
  obtain ⟨d, hd, hbody⟩ := exists_of_closure hk
  intro i hi
  refine h.refs hid hd i ?_
  rw [hbody, DefnBody.refs, ht]
  exact hi

/-- What an operation comes to is in the region. -/
theorem Region.operate (h : Region p R) (htops : TopsWithin R m.tops) {t : Tail}
    (hj : (Job.tail t env).Within R) {e : Effect} (hop : operate p m env t = .ok (e, m')) :
    e.Within R := by
  obtain ⟨hrefs, henv⟩ := hj
  have hargs {as : List Atom} (has : as ⊆ t.atoms) {vs : List Value}
      (hvs : Machine.atoms p m env as = .ok vs) : ∀ v ∈ vs, v.Within R := by
    refine h.atoms htops henv (fun i hi => hrefs i (List.mem_append_left _ ?_)) hvs
    obtain ⟨a, ha, hai⟩ := List.mem_filterMap.mp hi
    exact List.mem_filterMap.mpr ⟨a, has ha, hai⟩
  have harg {a : Atom} (ha : a ∈ t.atoms) {v : Value} (hv : Machine.atom p m env a = .ok v) :
      v.Within R :=
    h.atom htops henv (fun i hi =>
      hrefs i (List.mem_append_left _ (List.mem_filterMap.mpr ⟨a, ha, hi⟩))) hv
  cases t with
  | ret args =>
      obtain ⟨vals, hvals, hop⟩ := Except.bind_eq_ok.mp hop
      cases hop
      exact hargs (fun _ h => h) hvals
  | call c =>
      obtain ⟨vals, b, pos, hvals, hb, rfl, -⟩ := operate_call_inv hop
      rw [h.resolve] at hb
      have hid : R c.block := hrefs _ (List.mem_append_right _ (.head _))
      exact fun c' hc' => ⟨h.block hid hb hc', (LocalsWithin.nil R).assign _ (hargs (fun _ h => h) hvals)⟩
  | prim q args inst =>
      obtain ⟨vals, -, hop⟩ := Except.bind_eq_ok.mp hop
      obtain ⟨⟨vs, m₁⟩, hprim, hop⟩ := Except.bind_eq_ok.mp hop
      cases hop
      exact within_of_prim (orHalt_eq_ok hprim)
  | alloc k args inst =>
      obtain ⟨vals, hvals, hop⟩ := Except.bind_eq_ok.mp hop
      cases hop
      intro v hv
      rw [List.mem_singleton.mp hv, h.resolve]
      exact .closure (hrefs _ (List.mem_append_right _ (.head _))) (hargs (fun _ h => h) hvals)
  | data k args inst =>
      obtain ⟨vals, hvals, hop⟩ := Except.bind_eq_ok.mp hop
      cases hop
      intro v hv
      rw [List.mem_singleton.mp hv]
      exact .data (hargs (fun _ h => h) hvals)
  | enter fn args =>
      obtain ⟨id, stored, vals, k, pos, hfn, hvals, hk, rfl, -⟩ := operate_enter_inv hop
      rw [h.resolve] at hk
      cases harg (.head _) hfn with
      | closure hid hfields =>
          exact fun t' ht' => ⟨h.closure hid hk ht',
            ((LocalsWithin.nil R).assign _ hfields).assign _ (hargs (fun _ h => .tail _ h) hvals)⟩
  | sel k field arg inst =>
      obtain ⟨v, hv, hop⟩ := Except.bind_eq_ok.mp hop
      dsimp only at hop
      split at hop
      · rename_i f hfound
        cases hop
        intro u hu
        rw [List.mem_singleton.mp hu]
        split at hfound
        · cases harg (.head _) hv with
          | data hfields => exact hfields _ (List.mem_of_getElem? hfound)
        · cases hfound
      · cases hop

/-- What a job comes to is in the region. -/
theorem Region.move (h : Region p R) (htops : TopsWithin R m.tops) {j : Job} (hj : j.Within R)
    {mv : Move} (hmove : j.move p m = .ok (mv, m')) : mv.Within R := by
  cases j with
  | tail t env =>
      obtain ⟨e, hop, hmv⟩ := move_tail_inv hmove
      have he := h.operate htops hj hop
      unfold Effect.move at hmv
      split at hmv <;> cases hmv
      · exact he
      · exact he _ rfl
      · exact he _ rfl
  | code c env =>
      obtain ⟨hrefs, henv⟩ := hj
      cases c with
      | bind vars t next =>
          cases hmove
          exact ⟨⟨fun i hi => hrefs i (List.mem_append_left _ hi), henv⟩,
            fun i hi => hrefs i (List.mem_append_right _ hi)⟩
      | done t =>
          cases hmove
          exact ⟨hrefs, henv⟩
      | branch cond c d =>
          obtain ⟨call, hcall, hmove⟩ := Except.bind_eq_ok.mp hmove
          cases hmove
          refine ⟨fun i hi => hrefs i ?_, henv⟩
          obtain ⟨v, -, hcall⟩ := Except.bind_eq_ok.mp hcall
          split at hcall
          · cases hcall
            split at hi
            · exact List.mem_append_left _ (List.mem_append_right _ hi)
            · exact List.mem_append_right _ hi
          · cases hcall
      | case scrut alts default =>
          obtain ⟨call, hcall, hmove⟩ := Except.bind_eq_ok.mp hmove
          cases hmove
          refine ⟨fun i hi => hrefs i (List.mem_append_right _ (List.mem_flatMap.mpr ⟨call, ?_, hi⟩)),
            henv⟩
          have hscrut : Answers True (fun _ => False) Eq (Machine.atom p m env scrut)
            (Machine.atom p m env (id scrut)) := .refl _
          have hans := chooseAlt_answers (fun _ => rfl) alts default hscrut
          rw [hcall] at hans
          generalize chooseAlt p m env (id scrut) _ _ = y at hans
          cases hans with
          | ok hr => exact hr.2
          | late h => exact h.elim

theorem Job.Within.reads {j : Job} (hj : j.Within R) :
    ∀ a ∈ j.reads, ∀ i, a.defn? = some i → R i := by
  intro a ha i hi
  cases j with
  | tail t env =>
      exact hj.1 i (List.mem_append_left _ (List.mem_filterMap.mpr ⟨a, ha, hi⟩))
  | code c env =>
      cases c with
      | bind vars t next => cases ha
      | done t => cases ha
      | branch cond c d =>
          cases List.mem_singleton.mp ha
          refine hj.1 i (List.mem_append_left _ (List.mem_append_left _ ?_))
          exact Option.mem_toList.mpr hi
      | case scrut alts default =>
          cases List.mem_singleton.mp ha
          exact hj.1 i (List.mem_append_left _ (Option.mem_toList.mpr hi))

/-- A definition that a job waits for is of the region. -/
theorem Region.stall (h : Region p R) {j : Job} (hj : j.Within R) {id : DefnId} {pos : Position}
    {t : Option Tail} (hmove : j.move p m = .error (.top id pos t)) : R id :=
  errs_move_of_reads (P := fun s => ∀ id pos t, s = .top id pos t → R id) (fun _ _ _ _ h => nomatch h)
    (fun a ha => h.errs_atom (hj.reads a ha)) _ hmove id pos t rfl

/-- The values that a job comes to are of the region. -/
theorem Comes.within {quiet : Prop} {j : Job} {r : Except Failure (List Value)}
    (hc : Comes p quiet m j r m') (h : Region p R) (htops : TopsWithin R m.tops) (hj : j.Within R) :
    ∀ vs, r = .ok vs → ∀ v ∈ vs, v.Within R := by
  induction hc with
  | values _ hmove =>
      rintro vs ⟨⟩
      exact h.move htops hj hmove
  | fails => exact fun _ h => nomatch h
  | @job m m₁ m' j j' r _ hmove _ ih =>
      refine ih ?_ (h.move htops hj hmove)
      rw [((steady_move hmove).trans (.taking m₁ j')).tops]
      exact htops
  | @bind m m₁ m₂ m' j vars t env next vs r _ hmove htail _ _ ih₁ ih₂ =>
      obtain ⟨ht, hnext⟩ := h.move htops hj hmove
      have hs := (steady_move hmove).trans (.tick m₁)
      refine ih₂ ?_ ⟨hnext, ht.2.assign vars (ih₁ (by rw [hs.tops]; exact htops) ht vs rfl)⟩
      rw [(hs.trans htail.steady).tops]
      exact htops
  | breaks => exact fun _ h => nomatch h

/-- The values of a settled table are of the region, if those that are there from the start are. -/
theorem Settled.within {m₀ : Machine} {T : Table} (hT : Settled p m₀ T) (h : Region p R)
    (hgiven : TopsWithin R m₀.tops) : TopsWithin R T.tops := by
  induction hT with
  | given =>
      rw [Table.tops_given]
      exact hgiven
  | @cons e T d tl t m m' _ _ hd hbody htail _ htops hrun _ ih =>
      intro i vs hi hlookup
      rw [Table.lookup_cons] at hlookup
      split at hlookup
      · rename_i heq
        cases hlookup
        refine hrun.within h (htops ▸ ih) ⟨fun i' hi' => h.refs (heq ▸ hi) hd i' ?_, .nil R⟩ e.vals rfl
        rw [hbody, DefnBody.refs, htail]
        exact hi'
      · exact ih i vs hi hlookup

end Region

end Machine

end Mil
