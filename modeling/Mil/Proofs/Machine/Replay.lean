import Mil.Proofs.Machine.Follow

/-!
Top-level values on both sides. A definition that quantifies something has several copies, and each
of them computes its values when they are first needed, while the other side has kept the values of
the one definition. If its tail neither prints nor touches memory, computing it again gives copies of
the values that were kept. This is carried along a run for all values that are kept: they can be
replayed for every copy, in every machine that agrees with what was kept.
-/

namespace Mil.Machine

open Mono (Renames TailCopy CodeCopy BodyCopy)

/-- Values that are kept, by definition. -/
abbrev Tops := List (DefnId × List Value)

/-- The definition computes values and quantifies something. -/
def PolyTop (p : Program) (i : DefnId) : Prop :=
  ∃ d t, p.defns[i]? = some d ∧ d.body = .top t ∧ d.body.isPolymorphic = true

/-- The tail computes the values of the definition. -/
def Initial (p : Program) (i : DefnId) (t : Tail) : Prop :=
  ∃ d tl, p.defns[i]? = some d ∧ d.body = .top tl ∧ tl.tail = some t

section Agreement

variable (p : Program) (S : DefnId → DefnId → Prop) (size : Int)

/-- What a machine has computed for copies agrees with values that were kept. Only copies of what
quantifies something may still be without values, and none of them is being computed. -/
structure Agrees (T : Tops) (m₂ : Machine) : Prop where
  size : m₂.size = size
  values : ∀ {i j : DefnId} {vs vs₂ : List Value}, S i j → T.lookup i = some vs →
    m₂.tops.lookup j = some vs₂ → ValuesCopy S vs vs₂
  present : ∀ {i j : DefnId} {vs : List Value}, S i j → T.lookup i = some vs → ¬ PolyTop p i →
    ∃ vs₂, m₂.tops.lookup j = some vs₂
  idle : ∀ {i j : DefnId} {vs : List Value}, S i j → T.lookup i = some vs → j ∉ m₂.active

/-- Values were computed for copies of definitions whose values were kept, and nothing else has
changed that matters. -/
structure Grown (T : Tops) (m₂ m₂' : Machine) : Prop where
  size : m₂'.size = m₂.size
  active : m₂'.active = m₂.active
  trace : m₂'.trace = m₂.trace
  old : ∀ {j : DefnId} {vs : List Value}, m₂.tops.lookup j = some vs →
    m₂'.tops.lookup j = some vs
  new : ∀ {j : DefnId} {vs : List Value}, m₂'.tops.lookup j = some vs →
    m₂.tops.lookup j = some vs ∨ ∃ i vs', S i j ∧ T.lookup i = some vs'

/-- A copy is without values, though the values of its definition were kept. -/
def Late (T : Tops) (m₂ : Machine) : Waiting := fun j _ t₂ =>
  ∃ i vs t, T.lookup i = some vs ∧ PolyTop p i ∧ Initial p i t ∧ S i j ∧
    m₂.tops.lookup j = none ∧ TailCopy p S [] t t₂

/-- The machines of both sides compute the same definitions, and have no values for others. -/
structure Matched (m m₂ : Machine) : Prop where
  known : ∀ {i j : DefnId} {vs₂ : List Value}, S i j → m₂.tops.lookup j = some vs₂ →
    ∃ vs, m.tops.lookup i = some vs
  active : ∀ {i j : DefnId}, S i j → j ∈ m₂.active → i ∈ m.active

end Agreement

section Agreement

variable {p q : Program} {S : DefnId → DefnId → Prop} {size : Int} {T : Tops} {m m₂ m₂' m₂'' : Machine}

theorem Grown.refl (m₂ : Machine) : Grown S T m₂ m₂ :=
  ⟨rfl, rfl, rfl, fun h => h, fun h => .inl h⟩

theorem Grown.trans (h : Grown S T m₂ m₂') (h' : Grown S T m₂' m₂'') : Grown S T m₂ m₂'' where
  size := h'.size.trans h.size
  active := h'.active.trans h.active
  trace := h'.trace.trans h.trace
  old hj := h'.old (h.old hj)
  new hj := by
    rcases h'.new hj with hj | hnew
    · exact h.new hj
    · exact .inr hnew

/-- An operation that leaves no trace changes nothing that matters. -/
theorem Grown.of_steady (h : Steady m₂ m₂') (htrace : m₂'.trace = m₂.trace) : Grown S T m₂ m₂' :=
  ⟨h.size, h.active, htrace, fun hj => h.tops ▸ hj, fun hj => .inl (h.tops ▸ hj)⟩

theorem Agrees.of_steady (h : Agrees p S size T m₂) (hs : Steady m₂ m₂') :
    Agrees p S size T m₂' where
  size := hs.size.trans h.size
  values hij hi hj := h.values hij hi (hs.tops ▸ hj)
  present hij hi hpoly := hs.tops ▸ h.present hij hi hpoly
  idle hij hi := hs.active ▸ h.idle hij hi

/-- The values of a definition that is no external, for a reference. -/
theorem topValue_eq (hresolve : ∀ id, p.resolve id = id) {i : DefnId} {d : Defn} {index : Nat}
    (hd : p.defns[i]? = some d) (hbody : ∀ e, d.body ≠ .external e) :
    topValue p m i index = (topValues p m i >>= fun vals =>
      match vals[index]? with
      | some v => return v
      | none => throw (.halt (.defect (.missingTopValue index (p.nameOf i) vals.length)))) := by
  unfold topValue topTarget
  dsimp only
  rw [hresolve, hd]
  dsimp only
  split
  · rename_i e he
    exact absurd he (hbody e)
  · rfl

theorem Follows.of_halt {α β : Type} {live : Prop} {late : Waiting} {R : α → β → Prop}
    {x : Except Stall α} {y : Except Stall β} (h : ∃ h, x = .error (.halt h)) :
    Follows p S live late R x y := by
  obtain ⟨h, rfl⟩ := h
  exact .halt

/-- Values that were kept and their copies, for a reference. -/
theorem pick_follows {live : Prop} {late : Waiting} {vs vs₂ : List Value} (h : ValuesCopy S vs vs₂)
    (index : Nat) (d d' : Defect) :
    Follows p S live late (ValueCopy S)
      (match vs[index]? with
        | some v => return v
        | none => throw (.halt (.defect d)))
      (match vs₂[index]? with
        | some v => return v
        | none => throw (.halt (.defect d'))) := by
  cases hv : vs[index]? with
  | none => exact .halt
  | some v =>
      obtain ⟨v₂, hv₂, hcopy⟩ := forall₂_getElem? h.flip hv
      rw [hv₂]
      exact .ok hcopy

theorem topValues_top {j : DefnId} {d : Defn} {t : TopLevel} (hd : q.defns[j]? = some d)
    (ht : d.body = .top t) (hnone : m₂.tops.lookup j = none) (hactive : j ∉ m₂.active) :
    topValues q m₂ j = .error (.top j d.pos t.tail) := by
  unfold topValues Program.defn
  rw [hnone, hd]
  dsimp only
  rw [ht]
  dsimp only
  rw [if_neg hactive]

/-- A definition and a copy of it are no externals, or a reference to it fails. -/
theorem copy_cases (hc : Copies p q S) {i j : DefnId} (hserves : S i j) :
    (∀ index, ∃ h, topValue p m i index = .error (.halt h)) ∨
      ∃ d d', p.defns[i]? = some d ∧ q.defns[j]? = some d' ∧ BodyCopy p S d.body d'.body ∧
        (∀ e, d.body ≠ .external e) ∧ ∀ e, d'.body ≠ .external e := by
  obtain ⟨d, hd⟩ := hc.defined hserves
  have hexternal {e : External} (he : d.body = .external e) (index : Nat) :
      ∃ h, topValue p m i index = .error (.halt h) := by
    unfold topValue topTarget
    dsimp only
    rw [hc.resolve, hd]
    dsimp only
    rw [he]
    dsimp only
    rw [hc.impl hd he]
    exact ⟨_, rfl⟩
  rcases hc.copy hserves hd with ⟨e, he⟩ | ⟨d', hd', hcopy⟩
  · exact .inl (hexternal he)
  · generalize hb : d.body = body, hb' : d'.body = body' at hcopy
    cases hcopy with
    | external => exact .inl (hexternal hb)
    | block h₁ h₂ h₃ h₄ h₅ h₆ =>
        refine .inr ⟨d, d', hd, hd', ?_⟩
        rw [hb, hb']
        exact ⟨.block h₁ h₂ h₃ h₄ h₅ h₆, fun _ he => (nomatch he), fun _ he => (nomatch he)⟩
    | closure h₁ h₂ h₃ h₄ h₅ h₆ h₇ h₈ =>
        refine .inr ⟨d, d', hd, hd', ?_⟩
        rw [hb, hb']
        exact ⟨.closure h₁ h₂ h₃ h₄ h₅ h₆ h₇ h₈, fun _ he => (nomatch he), fun _ he => (nomatch he)⟩
    | top h₁ h₂ h₃ h₄ =>
        refine .inr ⟨d, d', hd, hd', ?_⟩
        rw [hb, hb']
        exact ⟨.top h₁ h₂ h₃ h₄, fun _ he => (nomatch he), fun _ he => (nomatch he)⟩

/-- If the values on the side of the copies agree with those that were kept, operands follow. -/
theorem tied_of_agrees (hc : Copies p q S) (live : Prop) (hsize : m.size = size)
    (hsub : ∀ i vs, m.tops.lookup i = some vs → T.lookup i = some vs)
    (h : Agrees p S size T m₂) (hlive : live → Matched S m m₂) :
    Tied p q S live (Late p S T m₂) m m₂ := by
  refine ⟨h.size.trans hsize.symm, fun {i j index index'} hserves hindex => ?_⟩
  rcases copy_cases (m := m) hc hserves with hhalt | ⟨d, d', hd, hd', hcopy, hbody, hbody'⟩
  · obtain ⟨halt, hhalt⟩ := hhalt index
    rw [hhalt]
    exact .halt
  · rw [topValue_eq hc.resolve hd hbody, topValue_eq hc.resolve' hd' hbody']
    obtain rfl : index' = index := by
      rcases hindex with hindex | ⟨d₀, e, hd₀, he⟩
      · exact hindex
      · rw [hd] at hd₀
        cases hd₀
        exact absurd he (hbody e)
    refine Follows.bind (R := ValuesCopy S) ?_ fun vs vs₂ hvs => pick_follows hvs index' _ _
    cases hi : m.tops.lookup i with
    | some vs =>
        have hvals : topValues p m i = .ok vs := by
          unfold topValues
          rw [hi]
        have hT := hsub i vs hi
        rw [hvals]
        cases hj : m₂.tops.lookup j with
        | some vs₂ =>
            have hvals₂ : topValues q m₂ j = .ok vs₂ := by
              unfold topValues
              rw [hj]
            rw [hvals₂]
            exact .ok (h.values hserves hT hj)
        | none =>
            -- only a copy of what quantifies something can be without values
            have hpoly : PolyTop p i := by
              by_contra hnot
              obtain ⟨vs₂, hj'⟩ := h.present hserves hT hnot
              rw [hj] at hj'
              cases hj'
            obtain ⟨d₀, t, hd₀, ht, -⟩ := id hpoly
            rw [hd] at hd₀
            cases hd₀
            generalize hb' : d'.body = body' at hcopy
            rw [ht] at hcopy
            cases hcopy with
            | @top _ t' tail tail' hsource hcopy htail _ =>
                rw [topValues_top hd' hb' hj (h.idle hserves hT), hcopy]
                exact .late ⟨i, vs, tail, hT, hpoly, ⟨d, t, hd, ht, hsource⟩, hserves, hj, htail⟩
    | none =>
        generalize hb : d.body = body, hb' : d'.body = body' at hcopy
        have hother (hnot : ∀ t, body ≠ .top t) : ∃ h, topValues p m i = .error (.halt h) := by
          unfold topValues Program.defn
          rw [hi, hd]
          dsimp only
          rw [hb]
          split
          · exact absurd rfl (hnot _)
          · exact ⟨_, rfl⟩
        cases hcopy with
        | block => exact Follows.of_halt (hother fun _ ht => nomatch ht)
        | closure => exact Follows.of_halt (hother fun _ ht => nomatch ht)
        | external => exact Follows.of_halt (hother fun _ ht => nomatch ht)
        | @top t t' tail tail' hsource hcopy htail _ =>
            by_cases hactive : i ∈ m.active
            · refine Follows.of_halt ?_
              unfold topValues Program.defn
              rw [hi, hd]
              dsimp only
              rw [hb]
              dsimp only
              rw [if_pos hactive]
              exact ⟨_, rfl⟩
            rw [topValues_top hd hb hi hactive, hsource]
            by_cases hl : live
            · have hmatched := hlive hl
              have hj : m₂.tops.lookup j = none := by
                cases hj : m₂.tops.lookup j with
                | none => rfl
                | some vs₂ =>
                    obtain ⟨vs, hvs⟩ := hmatched.known hserves hj
                    rw [hi] at hvs
                    cases hvs
              rw [topValues_top hd' hb' hj fun h => hactive (hmatched.active hserves h), hcopy]
              exact .stall hserves htail
            · exact .free hl

end Agreement

/-! ### Catching up -/

/-- Every operation is allowed. -/
def Anything : Option DefnId → Tail → Prop := fun _ _ => True

/-- The values of a copy can be computed: what is kept afterwards agrees with what was kept. -/
def Recovers (p q : Program) (S : DefnId → DefnId → Prop) (size : Int) (T : Tops) (j : DefnId)
    (pos : Position) (t₂ : Tail) (m₂ : Machine) : Prop :=
  ∃ vs₂ m₁, Evaluates q Anything (some j) (m₂.opening j pos) (.tail t₂ []) vs₂ m₁ ∧
    Agrees p S size T (m₁.keeping j m₂.pos vs₂) ∧ Grown S T m₂ (m₁.keeping j m₂.pos vs₂)

/-- Every copy of a definition whose values were kept can be computed when it is needed. -/
def Ready (p q : Program) (S : DefnId → DefnId → Prop) (size : Int) (T : Tops) : Prop :=
  ∀ {j : DefnId} {pos : Position} {t₂ : Tail} {m₂ : Machine}, Late p S T m₂ j pos t₂ →
    Agrees p S size T m₂ → Recovers p q S size T j pos t₂ m₂

theorem job_allowed (o : Option DefnId) (j : Job) : j.Allowed Anything o := by
  cases j <;> trivial

theorem trace_taking (m : Machine) (j : Job) : (m.taking j).trace = m.trace := by
  cases j <;> rfl

/-- Nobody is late. -/
def OnTime : Waiting := fun _ _ _ => False

section Catching

variable {p q : Program} {S : DefnId → DefnId → Prop} {size : Int} {T : Tops} {m m₂ m₂' : Machine}

/-- The definitions without values. -/
def missing (q : Program) (m₂ : Machine) : List DefnId :=
  (List.range q.defns.size).filter fun j => (m₂.tops.lookup j).isNone

theorem missing_lt (hold : ∀ {j : DefnId} {vs : List Value}, m₂.tops.lookup j = some vs →
    m₂'.tops.lookup j = some vs) {j : DefnId} (hj : j < q.defns.size)
    (hnone : m₂.tops.lookup j = none) {vs : List Value} (hsome : m₂'.tops.lookup j = some vs) :
    (missing q m₂').length < (missing q m₂).length := by
  have hsub : (missing q m₂').Sublist (missing q m₂) := by
    refine List.monotone_filter_right _ fun k hk => ?_
    cases hk' : m₂.tops.lookup k with
    | none => rfl
    | some vs' =>
        rw [hold hk'] at hk
        cases hk
  refine lt_of_le_of_ne hsub.length_le fun hlen => ?_
  have hmem : j ∈ missing q m₂' := by
    rw [hsub.eq_of_length hlen]
    exact List.mem_filter.mpr ⟨List.mem_range.mpr hj, by rw [hnone]; rfl⟩
  have := (List.mem_filter.mp hmem).2
  rw [hsome] at this
  cases this

theorem Follows.onTime_or {α β : Type} {live : Prop} {late : Waiting} {R : α → β → Prop}
    {x : Except Stall α} {y : Except Stall β} (h : Follows p S live late R x y) :
    Follows p S live OnTime R x y ∨ ∃ j pos t, late j pos t ∧ y = .error (.top j pos (some t)) := by
  cases h with
  | ok h => exact .inl (.ok h)
  | halt => exact .inl .halt
  | stall hserves htail => exact .inl (.stall hserves htail)
  | free h => exact .inl (.free h)
  | late h => exact .inr ⟨_, _, _, h, rfl⟩

theorem Late.lt_size (hc : Copies p q S) {j : DefnId} {pos : Position} {t₂ : Tail}
    (h : Late p S T m₂ j pos t₂) : j < q.defns.size := by
  obtain ⟨i, _, _, _, ⟨d, t, hd, ht, _⟩, _, hserves, _⟩ := h
  rcases hc.copy hserves hd with ⟨e, he⟩ | ⟨d', hd', -⟩
  · rw [ht] at he
    cases he
  · exact (Array.getElem?_eq_some_iff.mp hd').1

/-- A job can be taken up when nothing is late any more: whatever its copy waits for is computed
first. Each time a definition of the program gets its values, so this comes to an end. -/
theorem catch_up (hc : Copies p q S) (hready : Ready p q S size T) {live : Prop} {α : Type}
    {R : Machine → α → Move × Machine → Prop} {x : Except Stall α} {j₂ : Job}
    (hfollows : ∀ m₃, Agrees p S size T m₃ → Grown S T m₂ m₃ →
      Follows p S live (Late p S T m₃) (R m₃) x (j₂.move q m₃)) (h : Agrees p S size T m₂) :
    ∃ m₃, Agrees p S size T m₃ ∧ Grown S T m₂ m₃ ∧
      Follows p S live OnTime (R m₃) x (j₂.move q m₃) ∧
      ∀ o vs m', Evaluates q Anything o m₃ j₂ vs m' → Evaluates q Anything o m₂ j₂ vs m' := by
  induction hn : (missing q m₂).length using Nat.strong_induction_on generalizing m₂ with
  | _ n ih =>
      rcases (hfollows m₂ h (.refl m₂)).onTime_or with hnow | ⟨j, pos, t₂, hlate, hmove⟩
      · exact ⟨m₂, h, .refl m₂, hnow, fun _ _ _ heval => heval⟩
      · obtain ⟨vs₂, m₁, heval, hagrees, hgrown⟩ := hready hlate h
        have hlt := hlate.lt_size hc
        obtain ⟨_, _, _, _, _, _, _, hnone, _⟩ := hlate
        have hfewer := missing_lt hgrown.old hlt hnone (lookup_keeping_self m₁ j m₂.pos vs₂)
        obtain ⟨m₃, hagrees₃, hgrown₃, hfollows₃, hlift⟩ := ih _ (hn ▸ hfewer)
          (fun m₃ h₃ hg₃ => hfollows m₃ h₃ (hgrown.trans hg₃)) hagrees rfl
        exact ⟨m₃, hagrees₃, hgrown.trans hgrown₃, hfollows₃,
          fun o vs m' h₃ => .stall hmove heval (hlift o vs m' h₃)⟩

end Catching

/-! ### Replaying a derivation -/

section Replay

variable {p q : Program} {S : DefnId → DefnId → Prop} {size : Int} {T : Tops}
  {ok : Option DefnId → Tail → Prop}

theorem Job.Allowed.leavesTrace {o : Option DefnId} (hquiet : ∀ t, ok o t → t.leavesTrace = false)
    {j : Job} (h : j.Allowed ok o) : j.leavesTrace = false := by
  cases j with
  | tail t env => exact hquiet t h
  | code c env => rfl

/-- A move that leaves no trace can be made on the side of the copies as well, after what it waits
for has been computed. -/
theorem replay_move (hc : Copies p q S) (hready : Ready p q S size T) {m m' m₂ : Machine}
    {j j₂ : Job} {mv : Move} (hmove : j.move p m = .ok (mv, m')) (hquiet : j.leavesTrace = false)
    (hsize : m.size = size) (hsub : ∀ i vs, m.tops.lookup i = some vs → T.lookup i = some vs)
    (hj : JobCopy p S j j₂) (h : Agrees p S size T m₂) :
    ∃ m₃ m₃' mv₂, j₂.move q m₃ = .ok (mv₂, m₃') ∧ MoveCopy p S mv mv₂ ∧
      Agrees p S size T m₃' ∧ Grown S T m₂ m₃' ∧
      ∀ o vs m', Evaluates q Anything o m₃ j₂ vs m' → Evaluates q Anything o m₂ j₂ vs m' := by
  have hnot : j.leavesTrace ≠ true := by rw [hquiet]; decide
  have hfollows (m₃ : Machine) (h₃ : Agrees p S size T m₃) (_ : Grown S T m₂ m₃) :=
    move_follows hc (tied_of_agrees hc False hsize hsub h₃ False.elim) hj
      fun htrace => absurd htrace hnot
  obtain ⟨m₃, hagrees, hgrown, hnow, hlift⟩ := catch_up hc hready hfollows h
  generalize hmove₂ : j₂.move q m₃ = r₂ at hnow
  rw [hmove] at hnow
  cases hnow with
  | late hlate => exact hlate.elim
  | @ok _ r₂ hr =>
      obtain ⟨mv₂, m₃'⟩ := r₂
      obtain ⟨hcopy, ⟨-, htrace⟩ | ⟨htraced, -⟩⟩ := hr
      · have hsteady := steady_move hmove₂
        exact ⟨m₃, m₃', mv₂, hmove₂, hcopy, hagrees.of_steady hsteady,
          hgrown.trans (.of_steady hsteady htrace), hlift⟩
      · exact absurd htraced hnot

/-- A derivation that leaves no trace can be replayed for a copy of its job, in every machine that
agrees with values among which are those kept at the end. The values that are computed on the way are
kept from before, or are computed when they are needed. -/
theorem Evaluates.replay (hc : Copies p q S) (hready : Ready p q S size T) {o : Option DefnId}
    {m m' : Machine} {j : Job} {vals : List Value} (h : Evaluates p ok o m j vals m')
    (hquiet : ∀ t, ok o t → t.leavesTrace = false) (hidle : m.Idle) (hsize : m.size = size)
    (hsub : ∀ i vs, m'.tops.lookup i = some vs → T.lookup i = some vs) {j₂ : Job} {m₂ : Machine}
    (hj : JobCopy p S j j₂) (hagrees : Agrees p S size T m₂) (o₂ : Option DefnId) :
    ∃ vs₂ m₂', Evaluates q Anything o₂ m₂ j₂ vs₂ m₂' ∧ ValuesCopy S vals vs₂ ∧
      Agrees p S size T m₂' ∧ Grown S T m₂ m₂' := by
  induction h generalizing j₂ m₂ with
  | values hok hmove =>
      have hkeeps := Keeps.of_steady hidle (steady_move hmove)
      obtain ⟨m₃, m₃', mv₂, hmove₂, hcopy, hagrees', hgrown, hlift⟩ := replay_move hc hready hmove
        (hok.leavesTrace hquiet) hsize (fun i vs hi => hsub i vs (hkeeps.old i vs hi)) hj hagrees
      cases hcopy with
      | values hvals => exact ⟨_, m₃', hlift _ _ _ (.values (job_allowed _ _) hmove₂), hvals, hagrees', hgrown⟩
  | @job _ m m₁ m' _ j' _ hok hmove hrest ih =>
      have hsteady := (steady_move hmove).trans (.taking m₁ j')
      have hkeeps := Keeps.of_steady hidle hsteady
      have hkeeps' := hrest.keeps hkeeps.idle
      obtain ⟨m₃, m₃', mv₂, hmove₂, hcopy, hagrees', hgrown, hlift⟩ := replay_move hc hready hmove
        (hok.leavesTrace hquiet) hsize
        (fun i vs hi => hsub i vs ((hkeeps.trans hkeeps').old i vs hi)) hj hagrees
      cases hcopy with
      | @job _ j₂' hjob =>
          have htaking := Steady.taking m₃' j₂'
          obtain ⟨vs₂, m₂', heval, hvals, hagrees₂, hgrown₂⟩ := ih hquiet hkeeps.idle
            (hsteady.size.trans hsize) hsub hjob (hagrees'.of_steady htaking)
          exact ⟨vs₂, m₂', hlift _ _ _ (.job (job_allowed _ _) hmove₂ heval), hvals, hagrees₂,
            (hgrown.trans (.of_steady htaking (trace_taking m₃' j₂'))).trans hgrown₂⟩
  | @bind _ m m₁ mt m' _ vars t env next vs _ hok hmove htail hlen hnext ih₁ ih₂ =>
      have hsteady := (steady_move hmove).trans (.tick m₁)
      have hkeeps := Keeps.of_steady hidle hsteady
      have hkeeps₁ := htail.keeps hkeeps.idle
      have hkeeps₂ := hnext.keeps hkeeps₁.idle
      have hsize₁ : m₁.tick.size = size := hsteady.size.trans hsize
      obtain ⟨m₃, m₃', mv₂, hmove₂, hcopy, hagrees', hgrown, hlift⟩ := replay_move hc hready hmove
        (hok.leavesTrace hquiet) hsize
        (fun i vs hi => hsub i vs ((hkeeps.trans (hkeeps₁.trans hkeeps₂)).old i vs hi)) hj hagrees
      cases hcopy with
      | bind ht henv hlen₂ hfresh hcode =>
          have htick := Steady.tick m₃'
          obtain ⟨vs₂, mt₂, heval, hvals, hagrees₁, hgrown₁⟩ := ih₁ hquiet hkeeps.idle hsize₁
            (fun i vs hi => hsub i vs (hkeeps₂.old i vs hi)) (.tail ht henv)
            (hagrees'.of_steady htick)
          have henv' := henv.extend hlen₂ hlen hfresh hvals
          obtain ⟨vals₂, m₂', heval₂, hvals₂, hagrees₂, hgrown₂⟩ := ih₂ hquiet hkeeps₁.idle
            (htail.frame.1.trans hsize₁) hsub (.code hcode henv') hagrees₁
          have hlen' : vs₂.length = _ := hvals.length_eq.symm.trans (hlen.trans hlen₂.symm)
          exact ⟨vals₂, m₂', hlift _ _ _ (.bind (job_allowed _ _) hmove₂ heval hlen' heval₂), hvals₂,
            hagrees₂, ((hgrown.trans (.of_steady htick rfl)).trans hgrown₁).trans hgrown₂⟩
  | @stall _ _ _ _ _ _ _ _ vs _ hmove htop hrest _ ih =>
      -- the values were kept from before, and the copy need not wait for them
      have hkeeps := Keeps.keeping hmove htop.frame.2.2 (htop.keeps (hidle.opening hmove)) vs
      exact ih hquiet hkeeps.idle (htop.frame.1.trans hsize) hsub hj hagrees

/-! ### Keeping the values of one more definition -/

theorem lookup_cons_self (k : DefnId) (vals : List Value) (T : Tops) :
    List.lookup k ((k, vals) :: T) = some vals := by
  rw [List.lookup_cons, beq_self_eq_true]

theorem lookup_cons_ne {i k : DefnId} (h : i ≠ k) (vals : List Value) (T : Tops) :
    List.lookup i ((k, vals) :: T) = T.lookup i := by
  rw [List.lookup_cons, beq_eq_false_iff_ne.mpr h]

section Extend

variable {k : DefnId} {vals : List Value} {m₂ m₂' : Machine} (hk : T.lookup k = none)

include hk

theorem lookup_ne {i : DefnId} {vs : List Value} (hi : T.lookup i = some vs) : i ≠ k := by
  rintro rfl
  rw [hk] at hi
  cases hi

theorem lookup_extend {i : DefnId} {vs : List Value} (hi : T.lookup i = some vs) :
    List.lookup i ((k, vals) :: T) = some vs := by
  rw [lookup_cons_ne (lookup_ne hk hi), hi]

theorem Agrees.of_extend (h : Agrees p S size ((k, vals) :: T) m₂) : Agrees p S size T m₂ where
  size := h.size
  values hij hi hj := h.values hij (lookup_extend hk hi) hj
  present hij hi hpoly := h.present hij (lookup_extend hk hi) hpoly
  idle hij hi := h.idle hij (lookup_extend hk hi)

theorem Grown.extend (h : Grown S T m₂ m₂') : Grown S ((k, vals) :: T) m₂ m₂' where
  size := h.size
  active := h.active
  trace := h.trace
  old hj := h.old hj
  new hj := by
    rcases h.new hj with hj | ⟨i, vs, hij, hi⟩
    · exact .inl hj
    · exact .inr ⟨i, vs, hij, lookup_extend hk hi⟩

/-- What was computed for copies of other definitions does not touch the copies of this one. -/
theorem Grown.new_of_serves (hc : Copies p q S) (h : Grown S T m₂ m₂') {j : DefnId}
    {vs : List Value} (hserves : S k j) (hj : m₂'.tops.lookup j = some vs) :
    m₂.tops.lookup j = some vs := by
  rcases h.new hj with hj | ⟨i, vs', hij, hi⟩
  · exact hj
  · exact absurd (hc.source hij hserves) (lookup_ne hk hi)

theorem Agrees.extend (hc : Copies p q S) (h : Agrees p S size ((k, vals) :: T) m₂)
    (hgrown : Grown S T m₂ m₂') (h' : Agrees p S size T m₂') :
    Agrees p S size ((k, vals) :: T) m₂' where
  size := h'.size
  values {i j vs vs₂} hij hi hj := by
    by_cases hik : i = k
    · subst hik
      exact h.values hij hi (hgrown.new_of_serves hk hc hij hj)
    · rw [lookup_cons_ne hik] at hi
      exact h'.values hij hi hj
  present hij hi hpoly := by
    obtain ⟨vs₂, hj⟩ := h.present hij hi hpoly
    exact ⟨vs₂, hgrown.old hj⟩
  idle hij hi := hgrown.active ▸ h.idle hij hi

/-- While a copy of the definition is computed, the machine agrees with what was kept before. -/
theorem Agrees.opening (hc : Copies p q S) (h : Agrees p S size T m₂) {j : DefnId}
    (hserves : S k j) (pos : Position) : Agrees p S size T (m₂.opening j pos) where
  size := h.size
  values hij hi hj := h.values hij hi hj
  present hij hi hpoly := h.present hij hi hpoly
  idle {i j' vs} hij hi hmem := by
    rcases List.mem_cons.mp hmem with rfl | hmem
    · exact lookup_ne hk hi (hc.source hij hserves)
    · exact h.idle hij hi hmem

/-- The values of a copy that has been computed again are kept. -/
theorem recovers_self (hc : Copies p q S) {j : DefnId} {pos : Position} {t₂ : Tail}
    {vs₂ : List Value} {m₁ : Machine} (h : Agrees p S size ((k, vals) :: T) m₂)
    (hserves : S k j) (hnone : m₂.tops.lookup j = none)
    (heval : Evaluates q Anything (some j) (m₂.opening j pos) (.tail t₂ []) vs₂ m₁)
    (hvals : ValuesCopy S vals vs₂) (h₁ : Agrees p S size T m₁)
    (hgrown : Grown S T (m₂.opening j pos) m₁) :
    Recovers p q S size ((k, vals) :: T) j pos t₂ m₂ := by
  have hactive : (m₁.keeping j m₂.pos vs₂).active = m₂.active := heval.active_keeping
  have hold {j' : DefnId} {vs : List Value} (hj' : m₂.tops.lookup j' = some vs) :
      (m₁.keeping j m₂.pos vs₂).tops.lookup j' = some vs := by
    have hne : j' ≠ j := by
      rintro rfl
      rw [hnone] at hj'
      cases hj'
    rw [lookup_keeping hne]
    exact hgrown.old hj'
  refine ⟨vs₂, m₁, heval, ⟨h₁.size, fun {i j' vs vs'} hij hi hj' => ?_, fun {i j' vs} hij hi hnot => ?_,
    fun hij hi => hactive ▸ h.idle hij hi⟩, ⟨hgrown.size, hactive, hgrown.trace, hold,
    fun {j' vs} hj' => ?_⟩⟩
  · by_cases hjj : j' = j
    · subst hjj
      rw [lookup_keeping_self] at hj'
      cases hj'
      obtain rfl := hc.source hij hserves
      rw [lookup_cons_self] at hi
      cases hi
      exact hvals
    · rw [lookup_keeping hjj] at hj'
      by_cases hik : i = k
      · subst hik
        exact h.values hij hi (hgrown.new_of_serves hk hc hij hj')
      · rw [lookup_cons_ne hik] at hi
        exact h₁.values hij hi hj'
  · obtain ⟨vs', hj'⟩ := h.present hij hi hnot
    exact ⟨vs', hold hj'⟩
  · by_cases hjj : j' = j
    · subst hjj
      exact .inr ⟨k, vals, hserves, lookup_cons_self k vals T⟩
    · rw [lookup_keeping hjj] at hj'
      exact (hgrown.extend hk).new hj'

/-- One more definition has its values. If they were computed without a trace, everything that was
kept can still be computed for every copy. -/
theorem Ready.extend (hc : Copies p q S) (hready : Ready p q S size T)
    (hreplay : ∀ t, PolyTop p k → Initial p k t → ∀ {j : DefnId} {t₂ : Tail} {m₂ : Machine},
      TailCopy p S [] t t₂ → Agrees p S size T m₂ → ∃ vs₂ m₂',
        Evaluates q Anything (some j) m₂ (.tail t₂ []) vs₂ m₂' ∧ ValuesCopy S vals vs₂ ∧
          Agrees p S size T m₂' ∧ Grown S T m₂ m₂') :
    Ready p q S size ((k, vals) :: T) := by
  rintro j pos t₂ m₂ ⟨i, vs, t, hi, hpoly, hinitial, hserves, hnone, htail⟩ h
  have hT := h.of_extend hk
  by_cases hik : i = k
  · subst hik
    obtain ⟨vs₂, m₁, heval, hvals, h₁, hgrown⟩ :=
      hreplay t hpoly hinitial (j := j) htail (hT.opening hk hc hserves pos)
    exact recovers_self hk hc h hserves hnone heval hvals h₁ hgrown
  · rw [lookup_cons_ne hik] at hi
    obtain ⟨vs₂, m₁, heval, h₁, hgrown⟩ :=
      hready ⟨i, vs, t, hi, hpoly, hinitial, hserves, hnone, htail⟩ hT
    exact ⟨vs₂, m₁, heval, h.extend hk hc hgrown h₁, hgrown.extend hk⟩

end Extend

end Replay

end Mil.Machine
