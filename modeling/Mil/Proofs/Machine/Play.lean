import Mil.Proofs.Machine.Settle

/-!
Derivations played on a machine. A derivation that finds its top-level values in a settled table is
played on a machine that lags behind the table: where an operand needs an entry that the machine has
not computed, the derivation of that entry is played first, from the entries below it. The entry is
kept, so an operation waits for each entry at most once, and the machine ends up with a settled table
of its own.
-/

namespace Mil.Machine

/-- The machine has the values of a settled table `S` that agrees with `T`, and computes nothing that
has values in `T`. -/
structure Lags (p : Program) (m₀ : Machine) (T S : Table) (m : Machine) : Prop where
  size_eq : m.size = m₀.size
  fuel : m.fuel ≤ 0
  tops : m.tops = S.tops
  settled : Settled p m₀ S
  agree : ∀ {i : DefnId} {vs vs' : List Value}, S.tops.lookup i = some vs →
    T.tops.lookup i = some vs' → vs = vs'
  idle : ∀ i ∈ m.active, T.tops.lookup i = none

/-- The machine `m` with the table `S` has come to `m'` with the table `S'`; what is new in the table
comes from `T`. -/
structure Ahead (p : Program) (m₀ : Machine) (T S S' : Table) (m m' : Machine) : Prop where
  lags : Lags p m₀ T S' m'
  le : Tops.Le S.tops S'.tops
  source : ∀ e ∈ S', e ∈ S ∨ e ∈ T
  active : m'.active = m.active
  cost : S.cost ≤ S'.cost

/-- What is done with an outcome, with what remains to be done afterwards. -/
def handOn (p : Program) (stack : List Frame) (m : Machine) :
    Except Failure (List Value) → Next × Machine
  | .ok vs => deliver p stack m vs
  | .error f => (.halt (.failure f), m)

/-- Every derivation from the values of the table can be played on machines that lag behind. -/
def Plays (p : Program) (m₀ : Machine) (T : Table) : Prop :=
  ∀ {quiet : Prop} {w w' : Machine} {j : Job} {r : Except Failure (List Value)},
    Comes p quiet w j r w' → w.size = m₀.size → w.tops = T.tops → w.active = [] →
    ∀ {S : Table} {m : Machine}, Lags p m₀ T S m → m.trace = w.trace → m.pos = w.pos →
    ∃ S' m' k, Ahead p m₀ T S S' m m' ∧ w'.steps = w.steps + k ∧ m'.trace = w'.trace ∧
      m'.pos = w'.pos ∧ m'.steps + S.cost = m.steps + k + S'.cost ∧
      (∀ stack, Reaches p (j.go p m stack) (handOn p stack m' r)) ∧
      ∀ vs, r = .ok vs → Warm p quiet S' m j r m' k

section Lags

variable {p : Program} {m₀ : Machine} {T S S' S'' : Table} {m m' m'' : Machine}

theorem Lags.steady (h : Lags p m₀ T S m) (hs : Steady m m') : Lags p m₀ T S m' where
  size_eq := hs.size.trans h.size_eq
  fuel := hs.fuel ▸ h.fuel
  tops := hs.tops.trans h.tops
  settled := h.settled
  agree := h.agree
  idle := hs.active ▸ h.idle

theorem Ahead.refl (h : Lags p m₀ T S m) : Ahead p m₀ T S S m m :=
  ⟨h, .refl _, fun _ he => .inl he, rfl, Nat.le_refl _⟩

theorem Ahead.steady (h : Ahead p m₀ T S S' m m') (hs : Steady m' m'') :
    Ahead p m₀ T S S' m m'' :=
  ⟨h.lags.steady hs, h.le, h.source, hs.active.trans h.active, h.cost⟩

theorem Ahead.trans (h : Ahead p m₀ T S S' m m') (h' : Ahead p m₀ T S' S'' m' m'') :
    Ahead p m₀ T S S'' m m'' where
  lags := h'.lags
  le := h.le.trans h'.le
  source e he := by
    rcases h'.source e he with he | he
    · exact h.source e he
    · exact .inr he
  active := h'.active.trans h.active
  cost := Nat.le_trans h.cost h'.cost

/-- A value that the machine has not computed yet, or is about to compute. -/
def Due (T : Table) : Stall → Prop
  | .halt _ => False
  | .top id _ _ => ∃ vs, T.tops.lookup id = some vs

/-- An operand has the value that the table gives, or has to wait for an entry of the table. -/
theorem atom_lags (hT : Settled p m₀ T) (h : Lags p m₀ T S m) {w : Machine} {env : Locals}
    (htops : w.tops = T.tops) (hactive : w.active = []) (hpos : m.pos = w.pos) (a : Atom) :
    Answers True (Due T) Eq (atom p w env a) (atom p m env a) := by
  cases a with
  | temp t => exact .refl _
  | lit l => exact .refl _
  | top id index site =>
      unfold atom
      dsimp only
      unfold topValue
      refine Answers.bind (R := Eq) ?_ fun id id₂ hid => ?_
      · unfold topTarget
        dsimp only
        split
        · split
          · split
            · exact .ok rfl
            · exact fail_answers (fun _ => hpos) _
          · exact .ok rfl
        · exact .ok rfl
      · subst hid
        refine Answers.bind (R := Eq) ?_ fun vals vals₂ hvals => ?_
        · unfold topValues
          rw [htops, h.tops]
          cases hlookup : T.tops.lookup id with
          | none =>
              dsimp only
              split
              · exact .defect
              · split
                · rw [hactive, if_neg List.not_mem_nil]
                  exact .stall
                · exact .defect
          | some vals =>
              cases hlookup' : S.tops.lookup id with
              | some vals' => exact .ok (h.agree hlookup' hlookup).symm
              | none =>
                  -- what was computed for the table is a top-level definition that is not being computed
                  rcases hT.find hlookup with hgiven | ⟨e, older, rfl, rfl, he⟩
                  · rw [h.settled.le_given _ _ hgiven] at hlookup'
                    cases hlookup'
                  obtain ⟨d, tl, t, -, -, hd, hbody, -⟩ := he.run
                  have hidle : e.id ∉ m.active := by
                    intro hmem
                    rw [h.idle _ hmem] at hlookup
                    cases hlookup
                  unfold Program.defn
                  rw [hd]
                  dsimp only
                  rw [hbody]
                  dsimp only
                  rw [if_neg hidle]
                  exact .late ⟨_, hlookup⟩
        · subst hvals
          exact .refl _

end Lags

/-! ### Entries that are computed on the way -/

section Settle

variable {p : Program} {m₀ : Machine} {T S S' : Table} {m m' : Machine} {j : Job}

/-- The values that come of a run were there before, or are from the table. -/
theorem Ahead.find (h : Ahead p m₀ T S S' m m') (hT : Settled p m₀ T) (hS : Settled p m₀ S)
    {i : DefnId} {vs : List Value} (hi : S'.tops.lookup i = some vs) :
    S.tops.lookup i = some vs ∨ T.tops.lookup i = some vs := by
  rcases h.lags.settled.find hi with hi | ⟨e, older, rfl, rfl, he⟩
  · exact .inl (hS.le_given i vs hi)
  · have hnone : m₀.tops.lookup e.id = none := by
      cases hi' : m₀.tops.lookup e.id with
      | none => rfl
      | some vs =>
          have hnew := he.new
          rw [he.settled.le_given _ _ hi'] at hnew
          cases hnew
    exact (h.source e he.mem).imp (hS.lookup_of_mem · hnone) (hT.lookup_of_mem · hnone)

/-- A job that waits for an entry of the table gets it: the entry is computed and kept, and the job is
taken up again. -/
theorem settle_top (hT : Settled p m₀ T)
    (hplays : ∀ older : Table, older.length < T.length → Settled p m₀ older → Plays p m₀ older)
    (h : Lags p m₀ T S m) {id : DefnId} {pos : Position} {t : Option Tail} {vs : List Value}
    (hmove : j.move p m = .error (.top id pos t)) (hlookup : T.tops.lookup id = some vs) :
    ∃ S' m', Ahead p m₀ T S S' m m' ∧ m'.trace = m.trace ∧ m'.pos = m.pos ∧
      m'.steps + S.cost = m.steps + S'.cost ∧ m.steps < m'.steps ∧ S'.tops.lookup id = some vs ∧
      ∀ stack, Reaches p (j.go p m stack) (j.go p m' stack) := by
  obtain ⟨hnone, hnot, d, tl, hd, hbody, ht⟩ := errs_move _ _ hmove
  rw [h.tops] at hnone
  rcases hT.find hlookup with hgiven | ⟨e, older, rfl, rfl, hcomputed⟩
  · rw [h.settled.le_given _ _ hgiven] at hnone
    cases hnone
  obtain ⟨d', tl', t', w, w', hd', hbody', ht', hsize, htops, hrun, hcost⟩ := hcomputed.run
  rw [hd] at hd'
  cases hd'
  rw [hbody] at hbody'
  cases hbody'
  rw [ht'] at ht
  subst ht
  -- the entries below agree with what the machine has
  have holder := hcomputed.settled
  have hlags : Lags p m₀ older S (m.opening e.id pos) :=
    { size_eq := h.size_eq, fuel := h.fuel, tops := h.tops, settled := h.settled
      agree := fun hi hi' => h.agree hi (hcomputed.le _ _ hi')
      idle := by
        intro i hi
        rcases List.mem_cons.mp hi with rfl | hi
        · exact hcomputed.new
        · cases hi' : older.tops.lookup i with
          | none => rfl
          | some vs =>
              have := h.idle i hi
              rw [hcomputed.le _ _ hi'] at this
              cases this }
  obtain ⟨w₂', hcomes, -, -, hsteps₂⟩ := hrun.transfer rfl
    (show Beyond w ((m.opening e.id pos).under older) from
      ⟨h.size_eq.trans hsize.symm, htops ▸ .refl _⟩) (.inl trivial)
  have hsilent := hcomes.silent trivial
  obtain ⟨S₁, m₁, k, hahead, hk, htrace, hpos, hsteps, hreach, hwarm⟩ :=
    hplays older hcomputed.shorter holder hcomes h.size_eq rfl rfl hlags rfl rfl
  obtain ⟨w₃', hcomes₃, -, -, hsteps₃⟩ := hwarm _ rfl
    ((m.opening e.id pos).under S₁) ⟨rfl, .refl _⟩ rfl rfl rfl
  have hnone₁ : S₁.tops.lookup e.id = none := by
    cases hi : S₁.tops.lookup e.id with
    | none => rfl
    | some vs =>
        rcases hahead.find holder h.settled hi with hi | hi
        · rw [hnone] at hi
          cases hi
        · rw [hcomputed.new] at hi
          cases hi
  have hactive : (m₁.keeping e.id m.pos e.vals).active = m.active := by
    show m₁.active.erase e.id = m.active
    rw [hahead.active]
    exact List.erase_cons_head e.id m.active
  have hopen (S : Table) : ((m.opening e.id pos).under S).steps = m.steps + 1 := rfl
  have hopen' : (m.opening e.id pos).steps = m.steps + 1 := rfl
  rw [hopen] at hsteps₂ hk hsteps₃
  rw [hopen'] at hsteps
  have hsettled : Settled p m₀ (e :: S₁) :=
    .cons hahead.lags.settled hnone₁ hd hbody ht' (by exact h.size_eq) rfl hcomes₃
      (by rw [hopen]; omega)
  have hcost₁ := hahead.cost
  have hcost₂ := Table.cost_cons e S₁
  refine ⟨e :: S₁, m₁.keeping e.id m.pos e.vals, ⟨⟨hahead.lags.size_eq, hahead.lags.fuel, ?_,
    hsettled, fun {i vs vs'} hi hi' => ?_, fun i hi => ?_⟩, fun i vs hi => ?_, fun e' he' => ?_,
    hactive, by omega⟩, htrace.trans hsilent, rfl, ?_, ?_, ?_, fun stack => ?_⟩
  · show (e.id, e.vals) :: m₁.tops = _
    rw [hahead.lags.tops]
    rfl
  · rw [Table.lookup_cons] at hi
    split at hi
    · rename_i heq
      rw [heq, hcomputed.lookup] at hi'
      exact Option.some.inj (hi.symm.trans hi')
    · rcases hahead.find holder h.settled hi with hi | hi
      · exact h.agree hi hi'
      · exact Option.some.inj ((hcomputed.le _ _ hi).symm.trans hi')
  · exact h.idle i (hactive ▸ hi)
  · exact Table.le_cons hnone₁ i vs (hahead.le i vs hi)
  · rcases List.mem_cons.mp he' with rfl | he'
    · exact .inr hcomputed.mem
    · exact (hahead.source e' he').imp_right (hcomputed.subset ·)
  · show m₁.steps + _ = _
    omega
  · show m.steps < m₁.steps
    omega
  · rw [Table.lookup_cons, if_pos rfl]
  · rw [go_of_stall hmove]
    refine (reaches_tail (by exact h.fuel) t' [] _).trans ?_
    refine (hreach (.top e.id m.pos (some j.resume) :: stack)).trans (.of_eq ?_)
    exact deliver_top e.id m.pos e.vals

/-- The operands of a job are made available: whatever the job comes to at once with the values of
the table, it comes to on the machine after that. -/
theorem settle_move (hT : Settled p m₀ T)
    (hplays : ∀ older : Table, older.length < T.length → Settled p m₀ older → Plays p m₀ older)
    {w : Machine} (hsize : w.size = m₀.size) (htops : w.tops = T.tops) (hactive : w.active = [])
    (h : Lags p m₀ T S m) (htrace : m.trace = w.trace) (hpos : m.pos = w.pos)
    (hmove : (∃ x, j.move p w = .ok x) ∨ ∃ f, j.move p w = .error (.halt (.failure f))) :
    ∃ S' m', Ahead p m₀ T S S' m m' ∧ m'.trace = m.trace ∧ m'.pos = m.pos ∧
      m'.steps + S.cost = m.steps + S'.cost ∧
      (∀ stack, Reaches p (j.go p m stack) (j.go p m' stack)) ∧
      Answers True (fun _ => False) (Alongside j.leavesTrace w m') (j.move p w) (j.move p m') := by
  induction hn : (missing p m).length using Nat.strong_induction_on generalizing S m with
  | h n ih =>
      have hanswer := move_answers (j := j) (h.size_eq.trans hsize.symm) (fun _ : True => hpos)
        (fun _ => htrace) fun a _ => atom_lags hT h htops hactive hpos a
      have hdone {y : Except Stall (Move × Machine)} (hy : j.move p m = y)
          (hans : Answers True (fun _ => False) (Alongside j.leavesTrace w m) (j.move p w) y) :
          ∃ S' m', Ahead p m₀ T S S' m m' ∧ m'.trace = m.trace ∧ m'.pos = m.pos ∧
            m'.steps + S.cost = m.steps + S'.cost ∧
            (∀ stack, Reaches p (j.go p m stack) (j.go p m' stack)) ∧
            Answers True (fun _ => False) (Alongside j.leavesTrace w m') (j.move p w)
              (j.move p m') :=
        ⟨S, m, .refl h, rfl, rfl, rfl, fun stack => .refl p _, hy ▸ hans⟩
      generalize hx : j.move p w = x, hy : j.move p m = y at hanswer
      rw [hx] at hmove hdone
      cases hanswer with
      | ok hab => exact hdone hy (.ok hab)
      | failure f => exact hdone hy (.failure f)
      | dead hlive => exact absurd trivial hlive
      | defect => rcases hmove with ⟨_, hmove⟩ | ⟨_, hmove⟩ <;> cases hmove
      | stall => rcases hmove with ⟨_, hmove⟩ | ⟨_, hmove⟩ <;> cases hmove
      | @late _ s hdue =>
          cases s with
          | halt e => exact hdue.elim
          | top id pos t =>
              obtain ⟨vs, hlookup⟩ := hdue
              obtain ⟨S₁, m₁, hahead, htrace₁, hpos₁, hsteps₁, -, hkept, hreach⟩ :=
                settle_top hT hplays h hy hlookup
              obtain ⟨hnone, -, d, -, hd, -⟩ := errs_move _ _ hy
              have hfewer : (missing p m₁).length < (missing p m).length :=
                missing_lt (fun {i vs} hi => by
                  rw [h.tops] at hi
                  rw [hahead.lags.tops]
                  exact hahead.le i vs hi)
                  (Array.getElem?_eq_some_iff.mp hd).1 hnone (hahead.lags.tops ▸ hkept)
              obtain ⟨S', m', hahead', htrace', hpos', hsteps', hreach', hanswer⟩ :=
                ih _ (hn ▸ hfewer) hahead.lags (htrace₁.trans htrace) (hpos₁.trans hpos) rfl
              exact ⟨S', m', hahead.trans hahead', htrace'.trans htrace₁, hpos'.trans hpos₁,
                by omega, fun stack => (hreach stack).trans (hreach' stack), hx ▸ hanswer⟩

/-- A job whose operands are available in the table moves on the machine in the same way. -/
theorem settle_ok (hT : Settled p m₀ T)
    (hplays : ∀ older : Table, older.length < T.length → Settled p m₀ older → Plays p m₀ older)
    {w w₁ : Machine} (hsize : w.size = m₀.size) (htops : w.tops = T.tops) (hactive : w.active = [])
    (h : Lags p m₀ T S m) (htrace : m.trace = w.trace) (hpos : m.pos = w.pos) {mv : Move}
    (hmove : j.move p w = .ok (mv, w₁)) :
    ∃ S' m' m₁, j.move p m' = .ok (mv, m₁) ∧ Ahead p m₀ T S S' m m₁ ∧ m'.tops = S'.tops ∧
      m'.size = m.size ∧ m'.trace = m.trace ∧ m'.pos = m.pos ∧ m₁.trace = w₁.trace ∧
      m₁.pos = w₁.pos ∧ m₁.steps + S.cost = m.steps + S'.cost ∧
      ∀ stack, Reaches p (j.go p m stack) (mv.go p m₁ stack) := by
  obtain ⟨S', m', hahead, htrace', hpos', hsteps, hreach, hanswer⟩ :=
    settle_move hT hplays hsize htops hactive h htrace hpos (.inl ⟨_, hmove⟩)
  rw [hmove] at hanswer
  generalize hmove' : j.move p m' = y at hanswer
  cases hanswer with
  | late h => exact h.elim
  | @ok _ b hab =>
      obtain ⟨mv', m₁⟩ := b
      obtain ⟨hmv, hecho, hpos₁⟩ := hab
      dsimp only at hmv hecho hpos₁
      subst hmv
      refine ⟨S', m', m₁, hmove', hahead.steady (steady_move hmove'), hahead.lags.tops,
        hahead.lags.size_eq.trans h.size_eq.symm, htrace', hpos',
        hecho.trace_eq (htrace'.trans htrace), hpos₁ (hpos'.trans hpos), ?_, fun stack => ?_⟩
      · rw [(still_move hmove').steps, hsteps]
      · exact (hreach stack).trans (.of_eq (go_of_move hmove'))

/-- Derivations can be played. -/
theorem plays (hT : Settled p m₀ T) : Plays p m₀ T := by
  induction hn : T.length using Nat.strong_induction_on generalizing T with
  | h n ih =>
      have hplays (older : Table) (hlt : older.length < T.length) (hs : Settled p m₀ older) :
          Plays p m₀ older := ih _ (hn ▸ hlt) hs rfl
      intro quiet w w' j r hcomes hsize htops hactive S m h htrace hpos
      induction hcomes generalizing S m with
      | @values w w' j vs hquiet hmove =>
          obtain ⟨S', m', m₁, hmove', hahead, htops', hsize', htrace', hpos', htrace₁, hpos₁, hsteps,
            hreach⟩ := settle_ok hT hplays hsize htops hactive h htrace hpos hmove
          exact ⟨S', m₁, 0, hahead, (still_move hmove).steps, htrace₁, hpos₁, hsteps, hreach,
            fun _ _ => (warm_values hquiet hmove' htops').congr hsize' htrace' hpos'⟩
      | @fails w j f hmove =>
          obtain ⟨S', m', hahead, htrace', hpos', hsteps, hreach, hanswer⟩ :=
            settle_move hT hplays hsize htops hactive h htrace hpos (.inr ⟨_, hmove⟩)
          refine ⟨S', m', 0, hahead, rfl, htrace'.trans htrace, hpos'.trans hpos, hsteps,
            fun stack => (hreach stack).trans (.of_eq ?_), fun _ h => nomatch h⟩
          rw [hmove] at hanswer
          generalize hmove' : j.move p m' = y at hanswer
          cases hanswer with
          | failure => exact go_of_failure hmove' stack
          | dead h => exact absurd trivial h
          | late h => exact h.elim
      | @job w w₁ w' j j' r hquiet hmove hrest ih' =>
          obtain ⟨S', m', m₁, hmove', hahead, htops', hsize', htrace', hpos', htrace₁, hpos₁, hsteps,
            hreach⟩ := settle_ok hT hplays hsize htops hactive h htrace hpos hmove
          have hs := (steady_move hmove).trans (.taking w₁ j')
          have hs' := Steady.taking m₁ j'
          obtain ⟨S'', m'', k, hahead', hk, htrace'', hpos'', hsteps', hreach', hwarm⟩ :=
            ih' (hs.size.trans hsize) (hs.tops.trans htops) (hs.active.trans hactive)
              (hahead.lags.steady hs') (by rw [trace_taking, trace_taking, htrace₁])
              (by rw [pos_taking, pos_taking, hpos₁])
          rw [steps_taking] at hk hsteps'
          rw [(still_move hmove).steps] at hk
          refine ⟨S'', m'', j'.weight + k, (hahead.steady hs').trans hahead', by omega, htrace'', hpos'',
            by omega, fun stack => (hreach stack).trans ?_, fun vs hr => ?_⟩
          · exact (reaches_job hahead.lags.fuel j' stack).trans (hreach' stack)
          · exact (warm_job hquiet hmove' htops' hahead'.le (hwarm vs hr)).congr hsize' htrace' hpos'
      | @bind w w₁ w₂ w' j vars t env next vs r hquiet hmove htail hlen hnext ih₁ ih₂ =>
          obtain ⟨S', m', m₁, hmove', hahead, htops', hsize', htrace', hpos', htrace₁, hpos₁, hsteps,
            hreach⟩ := settle_ok hT hplays hsize htops hactive h htrace hpos hmove
          have hs := (steady_move hmove).trans (.tick w₁)
          have hs₂ := hs.trans htail.steady
          obtain ⟨S₂, m₂, k, hahead₂, hk, htrace₂, hpos₂, hsteps₂, hreach₂, hwarm₂⟩ :=
            ih₁ (hs.size.trans hsize) (hs.tops.trans htops) (hs.active.trans hactive)
              (hahead.lags.steady (.tick m₁)) htrace₁ hpos₁
          obtain ⟨S₃, m₃, k', hahead₃, hk', htrace₃, hpos₃, hsteps₃, hreach₃, hwarm₃⟩ :=
            ih₂ (hs₂.size.trans hsize) (hs₂.tops.trans htops) (hs₂.active.trans hactive)
              hahead₂.lags htrace₂ hpos₂
          rw [steps_tick, (still_move hmove).steps] at hk
          rw [steps_tick] at hsteps₂
          refine ⟨S₃, m₃, k + 1 + k', (hahead.steady (.tick m₁)).trans (hahead₂.trans hahead₃), by omega,
            htrace₃, hpos₃, by omega, fun stack => ?_, fun vs' hr => ?_⟩
          · refine (hreach stack).trans ((reaches_tail hahead.lags.fuel t env _).trans ?_)
            refine (hreach₂ (.bind vars next env :: stack)).trans (.trans (.of_eq ?_) (hreach₃ stack))
            rw [handOn, deliver, if_neg (not_not.mpr hlen)]
            rfl
          · refine (warm_bind hquiet hmove' htops' (hahead₂.le.trans hahead₃.le)
              ((hwarm₂ vs rfl).mono hahead₃.le) ?_ hlen (hwarm₃ vs' hr)).congr hsize' htrace' hpos'
            exact hahead₂.lags.size_eq.trans hahead.lags.size_eq.symm
      | @breaks w w₁ w' j vars t env next f hquiet hmove htail ih' =>
          obtain ⟨S', m', m₁, hmove', hahead, htops', hsize', htrace', hpos', htrace₁, hpos₁, hsteps,
            hreach⟩ := settle_ok hT hplays hsize htops hactive h htrace hpos hmove
          have hs := (steady_move hmove).trans (.tick w₁)
          obtain ⟨S₂, m₂, k, hahead₂, hk, htrace₂, hpos₂, hsteps₂, hreach₂, -⟩ :=
            ih' (hs.size.trans hsize) (hs.tops.trans htops) (hs.active.trans hactive)
              (hahead.lags.steady (.tick m₁)) htrace₁ hpos₁
          rw [steps_tick, (still_move hmove).steps] at hk
          rw [steps_tick] at hsteps₂
          refine ⟨S₂, m₂, k + 1, (hahead.steady (.tick m₁)).trans hahead₂, by omega, htrace₂, hpos₂,
            by omega, fun stack => ?_, fun _ h => nomatch h⟩
          exact (hreach stack).trans ((reaches_tail hahead.lags.fuel t env _).trans (hreach₂ _))

end Settle

end Mil.Machine
