import Mil.Proofs.Machine.Replay

/-!
Runs on copies. A program and one with copies of its definitions run side by side: they compute the
same top-level definitions in the same order, print the same and leave the same in memory. In
between, the side of the copies may compute the values of further copies of a definition whose values
the other side has kept. If these were computed without a trace, nothing can be seen of it.
-/

namespace Mil.Machine

open Mono (TailCopy)

/-- The machines of both sides, when they take up a job and its copy. -/
structure Sync (p q : Program) (S : DefnId → DefnId → Prop) (m m₂ : Machine) : Prop where
  agrees : Agrees p S m.size m.tops m₂
  matched : Matched S m m₂
  trace : m₂.trace = m.trace
  idle : m.Idle
  ready : Ready p q S m.size m.tops

section Sync

variable {p q : Program} {S : DefnId → DefnId → Prop} {m m' m₂ m₂' m₃ : Machine}

theorem Sync.grown (hc : Copies p q S) (h : Sync p q S m m₂) (hgrown : Grown S m.tops m₂ m₃)
    (hagrees : Agrees p S m.size m.tops m₃) : Sync p q S m m₃ where
  agrees := hagrees
  matched :=
    { known := fun {i j vs₂} hij hj => by
        rcases hgrown.new hj with hj | ⟨i', vs, hij', hi⟩
        · exact h.matched.known hij hj
        · obtain rfl := hc.source hij' hij
          exact ⟨vs, hi⟩
      active := fun hij hj => h.matched.active hij (hgrown.active ▸ hj) }
  trace := hgrown.trace.trans h.trace
  idle := h.idle
  ready := h.ready

theorem Sync.steady (h : Sync p q S m m₂) (hs : Steady m m') (hs₂ : Steady m₂ m₂')
    (htrace : m₂'.trace = m'.trace) : Sync p q S m' m₂' where
  agrees := by
    rw [hs.size, hs.tops]
    exact h.agrees.of_steady hs₂
  matched :=
    { known := fun hij hj => hs.tops ▸ h.matched.known hij (hs₂.tops ▸ hj)
      active := fun hij hj => hs.active ▸ h.matched.active hij (hs₂.active ▸ hj) }
  trace := htrace
  idle := h.idle.of_steady hs
  ready := by
    rw [hs.size, hs.tops]
    exact h.ready

/-- Both sides begin to compute a definition and a copy of it. -/
theorem Sync.opening (hc : Copies p q S) (h : Sync p q S m m₂) {j : Job} {i i₂ : DefnId}
    {pos pos₂ : Position} {t : Option Tail} (hmove : j.move p m = .error (.top i pos t))
    (hserves : S i i₂) : Sync p q S (m.opening i pos) (m₂.opening i₂ pos₂) where
  agrees := h.agrees.opening (errs_move _ _ hmove).1 hc hserves pos₂
  matched :=
    { known := fun hij hj => h.matched.known hij hj
      active := fun {k k₂} hij hj => by
        rcases List.mem_cons.mp hj with rfl | hj
        · obtain rfl := hc.source hij hserves
          exact .head _
        · exact .tail _ (h.matched.active hij hj) }
  trace := h.trace
  idle := h.idle.opening hmove
  ready := h.ready

/-- Both sides keep the values that they have computed. A definition that quantifies nothing has no
other copy; the other copies of one that does have no values yet. -/
theorem Sync.keeping (hc : Copies p q S) {ok : Option DefnId → Tail → Prop} {m₁ m₁₂ : Machine}
    {j : Job} {i i₂ : DefnId} {pos pos₂ : Position} {t t₂ : Tail} {vs vs₂ : List Value}
    (h : Sync p q S m m₂) (hmove : j.move p m = .error (.top i pos (some t))) (hserves : S i i₂)
    (heval : Evaluates p ok (some i) (m.opening i pos) (.tail t []) vs m₁)
    (heval₂ : Evaluates q Anything (some i₂) (m₂.opening i₂ pos₂) (.tail t₂ []) vs₂ m₁₂)
    (hvals : ValuesCopy S vs vs₂) (h₁ : Sync p q S m₁ m₁₂)
    (hready : Ready p q S m₁.size ((i, vs) :: m₁.tops)) :
    Sync p q S (m₁.keeping i m.pos vs) (m₁₂.keeping i₂ m₂.pos vs₂) := by
  obtain ⟨-, hnot, d, tl, hd, htl, -⟩ := errs_move _ _ hmove
  have hkeeps := Keeps.keeping hmove heval.frame.2.2 (heval.keeps (h.idle.opening hmove)) vs
  have hnone : m₁.tops.lookup i = none := h₁.idle i (heval.frame.2.2 ▸ .head _)
  have hactive : (m₁.keeping i m.pos vs).active = m.active := heval.active_keeping
  have hactive₂ : (m₁₂.keeping i₂ m₂.pos vs₂).active = m₂.active := heval₂.active_keeping
  have hself : (m₁.keeping i m.pos vs).tops.lookup i = some vs := lookup_keeping_self _ _ _ _
  constructor
  · refine ⟨h₁.agrees.size, fun {k k₂ ws ws₂} hij hk hk₂ => ?_, fun {k k₂ ws} hij hk hpoly => ?_,
      fun {k k₂ ws} hij hk hmem => ?_⟩
    · by_cases hki : k = i
      · subst hki
        rw [hself] at hk
        cases hk
        by_cases hki₂ : k₂ = i₂
        · subst hki₂
          rw [lookup_keeping_self] at hk₂
          cases hk₂
          exact hvals
        · rw [lookup_keeping hki₂] at hk₂
          obtain ⟨vs', hvs'⟩ := h₁.matched.known hij hk₂
          rw [hnone] at hvs'
          cases hvs'
      · have hki₂ : k₂ ≠ i₂ := by
          rintro rfl
          exact hki (hc.source hij hserves)
        rw [lookup_keeping hki] at hk
        rw [lookup_keeping hki₂] at hk₂
        exact h₁.agrees.values hij hk hk₂
    · by_cases hki : k = i
      · subst hki
        have hmono : d.body.isPolymorphic = false := by
          by_contra hnot
          exact hpoly ⟨d, tl, hd, htl, Bool.not_eq_false _ ▸ hnot⟩
        obtain rfl := hc.unique hserves hij hd hmono
        exact ⟨vs₂, lookup_keeping_self _ _ _ _⟩
      · have hki₂ : k₂ ≠ i₂ := by
          rintro rfl
          exact hki (hc.source hij hserves)
        rw [lookup_keeping hki] at hk
        rw [lookup_keeping hki₂]
        exact h₁.agrees.present hij hk hpoly
    · rw [hactive₂] at hmem
      by_cases hki : k = i
      · subst hki
        exact hnot (h.matched.active hij hmem)
      · rw [lookup_keeping hki] at hk
        exact h₁.agrees.idle hij hk (heval₂.frame.2.2 ▸ .tail _ hmem)
  · refine ⟨fun {k k₂ ws₂} hij hk₂ => ?_, fun {k k₂} hij hk₂ => ?_⟩
    · by_cases hki : k = i
      · subst hki
        exact ⟨vs, hself⟩
      · have hki₂ : k₂ ≠ i₂ := by
          rintro rfl
          exact hki (hc.source hij hserves)
        rw [lookup_keeping hki₂] at hk₂
        rw [lookup_keeping hki]
        exact h₁.matched.known hij hk₂
    · rw [hactive₂] at hk₂
      rw [hactive]
      exact h.matched.active hij hk₂
  · exact h₁.trace
  · exact hkeeps.idle
  · exact hready

end Sync

/-! ### Runs -/

/-- For a definition that quantifies something, only operations that leave no trace. -/
def QuietTops (p : Program) (o : Option DefnId) (t : Tail) : Prop :=
  ∀ i, o = some i → PolyTop p i → t.leavesTrace = false

section Runs

variable {p q : Program} {S : DefnId → DefnId → Prop}

/-- The other side can make the same move, or wait for a copy of what is waited for, after it has
caught up. -/
theorem Sync.move (hc : Copies p q S) {m m₂ : Machine} {j j₂ : Job} (h : Sync p q S m m₂)
    (hj : JobCopy p S j j₂) :
    ∃ m₃, Sync p q S m m₃ ∧ Follows p S True OnTime
        (fun r r₂ => MoveCopy p S r.1 r₂.1 ∧ Echoes j.leavesTrace m m₃ r.2 r₂.2) (j.move p m)
        (j₂.move q m₃) ∧
      ∀ o vs m', Evaluates q Anything o m₃ j₂ vs m' → Evaluates q Anything o m₂ j₂ vs m' := by
  have hfollows (m₃ : Machine) (h₃ : Agrees p S m.size m.tops m₃) (hgrown : Grown S m.tops m₂ m₃) :=
    have hsync := h.grown hc hgrown h₃
    move_follows hc (tied_of_agrees hc True rfl (fun _ _ hi => hi) h₃
      fun _ => hsync.matched) hj fun _ => hsync.trace
  obtain ⟨m₃, hagrees, hgrown, hnow, hlift⟩ := catch_up hc h.ready hfollows h.agrees
  exact ⟨m₃, h.grown hc hgrown hagrees, hnow, hlift⟩

theorem Sync.moved (hc : Copies p q S) {m m' m₂ : Machine} {j j₂ : Job} {mv : Move}
    (h : Sync p q S m m₂) (hj : JobCopy p S j j₂) (hmove : j.move p m = .ok (mv, m')) :
    ∃ m₃ m₂' mv₂, j₂.move q m₃ = .ok (mv₂, m₂') ∧ MoveCopy p S mv mv₂ ∧ Sync p q S m' m₂' ∧
      ∀ o vs m', Evaluates q Anything o m₃ j₂ vs m' → Evaluates q Anything o m₂ j₂ vs m' := by
  obtain ⟨m₃, hsync, hnow, hlift⟩ := h.move hc hj
  generalize hmove₂ : j₂.move q m₃ = r₂ at hnow
  rw [hmove] at hnow
  cases hnow with
  | late hlate => exact hlate.elim
  | @ok _ r₂ hr =>
      obtain ⟨mv₂, m₂'⟩ := r₂
      obtain ⟨hcopy, hecho⟩ := hr
      have htrace : m₂'.trace = m'.trace := by
        rcases hecho with ⟨hm, hm₂⟩ | ⟨-, heq⟩
        · exact hm₂.trans (hsync.trace.trans hm.symm)
        · exact heq
      exact ⟨m₃, m₂', mv₂, hmove₂, hcopy,
        hsync.steady (steady_move hmove) (steady_move hmove₂) htrace, hlift⟩

theorem Sync.stalled (hc : Copies p q S) {m m₂ : Machine} {j j₂ : Job} {i : DefnId}
    {pos : Position} {t : Tail} (h : Sync p q S m m₂) (hj : JobCopy p S j j₂)
    (hmove : j.move p m = .error (.top i pos (some t))) :
    ∃ m₃ i₂ pos₂ t₂, j₂.move q m₃ = .error (.top i₂ pos₂ (some t₂)) ∧ S i i₂ ∧
      TailCopy p S [] t t₂ ∧ Sync p q S m m₃ ∧
      ∀ o vs m', Evaluates q Anything o m₃ j₂ vs m' → Evaluates q Anything o m₂ j₂ vs m' := by
  obtain ⟨m₃, hsync, hnow, hlift⟩ := h.move hc hj
  generalize hmove₂ : j₂.move q m₃ = r₂ at hnow
  rw [hmove] at hnow
  cases hnow with
  | late hlate => exact hlate.elim
  | free hlive => exact absurd trivial hlive
  | stall hserves htail => exact ⟨m₃, _, _, _, hmove₂, hserves, htail, hsync, hlift⟩

/-- A derivation has a copy on the other side. It comes to copies of the values, and both sides look
alike afterwards. -/
theorem Evaluates.simulate (hc : Copies p q S) {o : Option DefnId} {m m' : Machine} {j : Job}
    {vals : List Value} (h : Evaluates p (QuietTops p) o m j vals m') {j₂ : Job} {m₂ : Machine}
    (hj : JobCopy p S j j₂) (hsync : Sync p q S m m₂) (o₂ : Option DefnId) :
    ∃ vs₂ m₂', Evaluates q Anything o₂ m₂ j₂ vs₂ m₂' ∧ ValuesCopy S vals vs₂ ∧
      Sync p q S m' m₂' := by
  induction h generalizing j₂ m₂ o₂ with
  | values _ hmove =>
      obtain ⟨m₃, m₂', mv₂, hmove₂, hcopy, hsync', hlift⟩ := hsync.moved hc hj hmove
      cases hcopy with
      | values hvals => exact ⟨_, m₂', hlift _ _ _ (.values (job_allowed _ _) hmove₂), hvals, hsync'⟩
  | @job _ _ m₁ _ _ j' _ _ hmove _ ih =>
      obtain ⟨m₃, m₂', mv₂, hmove₂, hcopy, hsync', hlift⟩ := hsync.moved hc hj hmove
      cases hcopy with
      | @job _ j₂' hjob =>
          have htrace : (m₂'.taking j₂').trace = (m₁.taking j').trace := by
            rw [trace_taking, trace_taking, hsync'.trace]
          obtain ⟨vs₂, m₂'', heval, hvals, hsync''⟩ :=
            ih hjob (hsync'.steady (.taking m₁ j') (.taking m₂' j₂') htrace) o₂
          exact ⟨vs₂, m₂'', hlift _ _ _ (.job (job_allowed _ _) hmove₂ heval), hvals, hsync''⟩
  | @bind _ _ m₁ mt _ _ vars t env next vs _ _ hmove _ hlen _ ih₁ ih₂ =>
      obtain ⟨m₃, m₂', mv₂, hmove₂, hcopy, hsync', hlift⟩ := hsync.moved hc hj hmove
      cases hcopy with
      | bind ht henv hlen₂ hfresh hcode =>
          obtain ⟨vs₂, mt₂, heval, hvals, hsync₁⟩ :=
            ih₁ (.tail ht henv) (hsync'.steady (.tick m₁) (.tick m₂') hsync'.trace) o₂
          obtain ⟨vals₂, m₂'', heval₂, hvals₂, hsync₂⟩ :=
            ih₂ (.code hcode (henv.extend hlen₂ hlen hfresh hvals)) hsync₁ o₂
          have hlen' : vs₂.length = _ := hvals.length_eq.symm.trans (hlen.trans hlen₂.symm)
          exact ⟨vals₂, m₂'', hlift _ _ _ (.bind (job_allowed _ _) hmove₂ heval hlen' heval₂),
            hvals₂, hsync₂⟩
  | @stall _ m m₁ _ _ i pos t vs _ hmove htop _ ih₁ ih₂ =>
      obtain ⟨m₃, i₂, pos₂, t₂, hmove₂, hserves, htail, hsync₃, hlift⟩ := hsync.stalled hc hj hmove
      have hopen : Sync p q S (m.opening i pos) (m₃.opening i₂ pos₂) :=
        hsync₃.opening hc hmove hserves
      obtain ⟨vs₂, m₁₂, heval, hvals, hsync₁⟩ :=
        ih₁ (.tail htail (.nil [] [])) hopen (some i₂)
      have hnone : m₁.tops.lookup i = none := hsync₁.idle i (htop.frame.2.2 ▸ .head _)
      -- the derivation of the values is there to be replayed for other copies
      have hready : Ready p q S m₁.size ((i, vs) :: m₁.tops) := by
        refine Ready.extend hnone hc hsync₁.ready
          fun t' hpoly hinitial j' t₂' m₂' htail' hagrees => ?_
        obtain rfl : t' = t := by
          obtain ⟨-, -, d, tl, hd, htl, ht⟩ := errs_move _ _ hmove
          obtain ⟨d', tl', hd', htl', ht'⟩ := hinitial
          rw [hd] at hd'
          cases hd'
          rw [htl] at htl'
          cases htl'
          rw [ht] at ht'
          cases ht'
          rfl
        exact htop.replay hc hsync₁.ready (fun _ hok => hok i rfl hpoly) hopen.idle
          htop.frame.1.symm (fun _ _ hi => hi) (.tail htail' (.nil [] [])) hagrees _
      obtain ⟨vals₂, m₂', heval₂, hvals₂, hsync'⟩ :=
        ih₂ hj (hsync₃.keeping hc hmove hserves htop heval hvals hsync₁ hready) o₂
      exact ⟨vals₂, m₂', hlift _ _ _ (.stall hmove₂ heval heval₂), hvals₂, hsync'⟩

end Runs

end Mil.Machine
