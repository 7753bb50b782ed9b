import Mil.Proofs.Machine.Play
import Mil.Proofs.Machine.Preserve

/-!
Top-level definitions that are computed in silence. If each of the definitions that can be reached
returns when it is run by itself, and nothing can be seen of that, then there is one settled table
with the values of all of them: what such a run has kept in the end is a settled table, a settled
table gives the values that its definitions return by themselves, and so any two of them can be
merged.
-/

namespace Mil.Machine

section Tables

variable {p : Program} {m₀ : Machine} {S T : Table} {m m' : Machine} {j : Job}

/-- What a run has kept that prints nothing and leaves memory alone is a settled table. -/
theorem Evaluates.settled {ok : Option DefnId → Tail → Prop} {o : Option DefnId} {vals : List Value}
    (h : Evaluates p ok o m j vals m') (hok : ∀ o t, ok o t → t.leavesTrace = false)
    (hidle : m.Idle) (hsize : m.size = m₀.size) (htops : m.tops = S.tops) (hS : Settled p m₀ S) :
    ∃ S' k, m'.tops = S'.tops ∧ Settled p m₀ S' ∧ Tops.Le S.tops S'.tops ∧
      Warm p True S' m j (.ok vals) m' k := by
  induction h generalizing S with
  | @values o m m' j vals hallowed hmove =>
      exact ⟨S, 0, (steady_move hmove).tops.trans htops, hS, .refl _,
        warm_values (fun _ => hallowed.leavesTrace (hok o)) hmove htops⟩
  | @job o m m₁ m' j j' vals hallowed hmove hrest ih =>
      have hs := (steady_move hmove).trans (.taking m₁ j')
      obtain ⟨S', k, htops', hS', hle, hwarm⟩ :=
        ih (hidle.of_steady hs) (hs.size.trans hsize) (hs.tops.trans htops) hS
      exact ⟨S', _, htops', hS', hle,
        warm_job (fun _ => hallowed.leavesTrace (hok o)) hmove htops hle hwarm⟩
  | @bind o m m₁ m₂ m' j vars t env next vs vals hallowed hmove htail hlen hnext ih₁ ih₂ =>
      have hs := (steady_move hmove).trans (.tick m₁)
      have hidle₁ := hidle.of_steady hs
      obtain ⟨S₁, k, htops₁, hS₁, hle₁, hwarm₁⟩ :=
        ih₁ hidle₁ (hs.size.trans hsize) (hs.tops.trans htops) hS
      have hsize₁ : m₂.size = m₁.size := htail.frame.1
      obtain ⟨S₂, k', htops₂, hS₂, hle₂, hwarm₂⟩ := ih₂ (htail.keeps hidle₁).idle
        (hsize₁.trans ((steady_move hmove).size.trans hsize)) htops₁ hS₁
      exact ⟨S₂, _, htops₂, hS₂, hle₁.trans hle₂,
        warm_bind (fun _ => hallowed.leavesTrace (hok o)) hmove htops (hle₁.trans hle₂)
          (hwarm₁.mono hle₂) hsize₁ hlen hwarm₂⟩
  | @stall o m m₁ m' j id pos t vs vals hmove htop hrest ih₁ ih₂ =>
      have hidle₁ := hidle.opening hmove
      obtain ⟨S₁, k, htops₁, hS₁, hle₁, hwarm₁⟩ := ih₁ hidle₁ hsize htops hS
      obtain ⟨-, -, d, tl, hd, hbody, ht⟩ := errs_move _ _ hmove
      have hkeeps := htop.keeps hidle₁
      obtain ⟨w', hcomes, htrace, -, hsteps⟩ :=
        hwarm₁ ((m.opening id pos).under S₁) ⟨rfl, .refl _⟩ rfl rfl rfl
      have hnew : S₁.tops.lookup id = none := by
        rw [← htops₁]
        refine hkeeps.idle id ?_
        rw [htop.frame.2.2]
        exact .head _
      have hsettled : Settled p m₀ (⟨id, vs, k + 1⟩ :: S₁) :=
        .cons hS₁ hnew hd hbody ht (by exact hsize) rfl hcomes (by dsimp only; omega)
      obtain ⟨S₂, k', htops₂, hS₂, hle₂, hwarm₂⟩ := ih₂ (Keeps.keeping hmove htop.frame.2.2 hkeeps vs).idle
        (htop.frame.1.trans hsize) (S := ⟨id, vs, k + 1⟩ :: S₁)
        (congrArg ((id, vs) :: ·) htops₁) hsettled
      refine ⟨S₂, k', htops₂, hS₂, hle₁.trans ((Table.le_cons hnew).trans hle₂),
        hwarm₂.congr htop.frame.1 ?_ rfl⟩
      exact htrace.symm.trans (hcomes.silent trivial)

/-- Nothing is being computed on the machine, and its steps are not bounded. -/
structure AtRest (m : Machine) : Prop where
  fuel : m.fuel ≤ 0
  active : m.active = []

theorem atRest_new (size : Int) : AtRest (new size 0) := ⟨Int.le_refl 0, rfl⟩

/-- A machine at rest lags behind every table that starts with its values. -/
theorem AtRest.lags (hm : AtRest m₀) (hT : Settled p m₀ T) (pos : Position) :
    Lags p m₀ T (Table.given m₀.tops) { m₀ with pos } where
  size_eq := rfl
  fuel := hm.fuel
  tops := (Table.tops_given m₀.tops).symm
  settled := .given
  agree hi hi' := by
    rw [Table.tops_given] at hi
    exact Option.some.inj ((hT.le_given _ _ hi).symm.trans hi')
  idle i hi := by
    rw [show ({ m₀ with pos } : Machine).active = [] from hm.active] at hi
    cases hi

/-- An entry gives the values that its definition returns by itself. -/
theorem Computed.leads {e : Entry} {older : Table} (h : Computed p m₀ T e older) (hm : AtRest m₀)
    {d : Defn} {tl : TopLevel} {t : Tail} (hd : p.defns[e.id]? = some d) (hbody : d.body = .top tl)
    (ht : tl.tail = some t) : ∃ m', Leads p (Job.go p m₀ [] (.tail t [])) (.ok e.vals) m' := by
  obtain ⟨d', tl', t', w, w', hd', hbody', ht', hsize, htops, hrun, -⟩ := h.run
  rw [hd] at hd'
  cases hd'
  rw [hbody] at hbody'
  cases hbody'
  rw [ht] at ht'
  cases ht'
  obtain ⟨w₂', hcomes, -⟩ := hrun.transfer rfl
    (show Beyond w (m₀.under older) from ⟨hsize.symm, htops ▸ .refl _⟩) (.inl trivial)
  obtain ⟨S', m', -, -, -, -, -, -, hreach, -⟩ :=
    plays h.settled hcomes rfl rfl rfl (hm.lags h.settled m₀.pos) rfl rfl
  exact ⟨m', (leads_finish p e.vals m').of_reaches (hreach [])⟩

/-- Settled tables agree. -/
theorem Settled.agree (hm : AtRest m₀) (hS : Settled p m₀ S) (hT : Settled p m₀ T) {i : DefnId}
    {vs vs' : List Value} (hi : S.tops.lookup i = some vs) (hi' : T.tops.lookup i = some vs') :
    vs = vs' := by
  rcases hS.find hi with hgiven | ⟨e, older, rfl, rfl, he⟩
  · exact Option.some.inj ((hT.le_given _ _ hgiven).symm.trans hi')
  rcases hT.find hi' with hgiven | ⟨e', older', hid, rfl, he'⟩
  · exact Option.some.inj (hi.symm.trans (hS.le_given _ _ hgiven))
  obtain ⟨d, tl, t, -, -, hd, hbody, ht, -⟩ := he.run
  obtain ⟨m₁, hleads⟩ := he.leads hm hd hbody ht
  obtain ⟨m₂, hleads'⟩ := he'.leads hm (hid ▸ hd) hbody ht
  exact Except.ok.inj (hleads.unique hleads').1

/-- Any two settled tables can be merged. -/
theorem Settled.merge (hm : AtRest m₀) (hS : Settled p m₀ S) (hT : Settled p m₀ T) :
    ∃ U : Table, Settled p m₀ U ∧ Tops.Le S.tops U.tops ∧ Tops.Le T.tops U.tops := by
  induction hS with
  | given =>
      rw [Table.tops_given]
      exact ⟨T, hT, hT.le_given, Tops.Le.refl _⟩
  | @cons e S d tl t m m' hS hnew hd hbody ht hsize htops hrun hcost ih =>
      obtain ⟨U, hU, hSU, hTU⟩ := ih
      have hcons : Settled p m₀ (e :: S) := .cons hS hnew hd hbody ht hsize htops hrun hcost
      cases hlookup : U.tops.lookup e.id with
      | some vs =>
          refine ⟨U, hU, fun i vs' hi => ?_, hTU⟩
          rw [Table.lookup_cons] at hi
          split at hi
          · rename_i heq
            have he := hcons.agree hm hU ((Table.lookup_cons e S e.id).trans (if_pos rfl)) hlookup
            rw [heq, hlookup, ← he]
            exact hi
          · exact hSU i vs' hi
      | none =>
          obtain ⟨w', hcomes, -, -, hsteps⟩ := hrun.transfer rfl
            (show Beyond m (m₀.under U) from ⟨hsize.symm, htops ▸ hSU⟩) (.inl trivial)
          refine ⟨e :: U, .cons (m := m₀.under U) hU hlookup hd hbody ht rfl rfl hcomes (by omega), fun i vs hi => ?_,
            hTU.trans (Table.le_cons hlookup)⟩
          rw [Table.lookup_cons] at hi ⊢
          split
          · rename_i heq
            rw [if_pos heq] at hi
            exact hi
          · rename_i hne
            rw [if_neg hne] at hi
            exact hSU i vs hi

end Tables

/-! ### The values of all definitions -/

/-- Run by themselves on a new machine, the top-level definitions that can be reached return, and on
the way nothing is printed and memory is not touched. -/
def SilentTops (p : Program) (size : Int) : Prop :=
  ∀ id ∈ p.reachable, ∀ d t, p.defns[id]? = some d → d.body = .top t →
    (∃ vals m, Returns p (.new size 0) id [] vals m) ∧
    ∀ n, LoopAllowed p (fun _ t => t.leavesTrace = false) n (start p (.new size 0) id []).1
      (start p (.new size 0) id []).2

/-- The machine is at rest, and what it has no values of among the top-level definitions that can be
reached is silent: run by themselves on the machine, they all return, and on the way nothing is printed
and memory is not touched. -/
structure Provided (p : Program) (m : Machine) : Prop extends AtRest m where
  silent : ∀ id ∈ p.reachable, ∀ d t, p.defns[id]? = some d → d.body = .top t →
    m.tops.lookup id = none → (∃ vals m', Returns p m id [] vals m') ∧
      ∀ n, LoopAllowed p (fun _ t => t.leavesTrace = false) n (start p m id []).1 (start p m id []).2

section Silent

variable {p : Program} {m₀ : Machine}

theorem SilentTops.provided {size : Int} (h : SilentTops p size) : Provided p (.new size 0) where
  toAtRest := atRest_new size
  silent id hid d t hd hbody _ := h id hid d t hd hbody

/-- A top-level definition without values is run by computing them. -/
theorem start_top (hresolve : ∀ id, p.resolve id = id) (hactive : m₀.active = []) {id : DefnId}
    {d : Defn} {tl : TopLevel} (hd : p.defns[id]? = some d) (hbody : d.body = .top tl)
    (hnone : m₀.tops.lookup id = none) :
    start p m₀ id [] = (.tail tl.tail [] [.top id d.pos none],
      { m₀ with pos := d.pos, active := [id] }) := by
  unfold start Program.defn
  dsimp only
  rw [hresolve, hd]
  dsimp only
  rw [hbody]
  dsimp only
  unfold topValues Program.defn
  dsimp only
  rw [hnone, hd]
  dsimp only
  rw [hbody]
  dsimp only
  rw [hactive, if_neg List.not_mem_nil]
  rfl

/-- What a silent run of a top-level definition computes is the newest entry of a settled table. -/
theorem exists_settled (hresolve : ∀ id, p.resolve id = id) (hm : AtRest m₀) {id : DefnId} {d : Defn}
    {tl : TopLevel} (hd : p.defns[id]? = some d) (hbody : d.body = .top tl)
    (hnone : m₀.tops.lookup id = none) {vals : List Value} {m : Machine}
    (hrun : Returns p m₀ id [] vals m)
    (hquiet : ∀ n, LoopAllowed p (fun _ t => t.leavesTrace = false) n (start p m₀ id []).1
      (start p m₀ id []).2) :
    ∃ T : Table, Settled p m₀ T ∧ ∃ vs, T.tops.lookup id = some vs := by
  obtain ⟨n, hloop⟩ := hrun
  have hall := hquiet n
  rw [start_top hresolve hm.active hd hbody hnone] at hloop hall
  cases ht : tl.tail with
  | none =>
      rw [ht] at hloop
      exact absurd hloop (Stuck.missing _ _).not_loop
  | some t =>
      rw [ht] at hloop hall
      have hfuel : ({ m₀ with pos := d.pos, active := [id] } : Machine).fuel ≤ 0 := hm.fuel
      obtain ⟨n, rfl, hok, hloop, hall⟩ := taken hfuel hloop hall
      obtain ⟨k, vs, m', -, -, heval, -⟩ :=
        evaluates_of_loop (j := .tail t []) (by exact hfuel) hok hloop hall
      have hidle : Idle (tick { m₀ with pos := d.pos, active := [id] }) := by
        intro i hi
        rw [List.mem_singleton.mp hi]
        exact hnone
      obtain ⟨S, k', htops, hS, -, hwarm⟩ := heval.settled (fun _ _ h => h) hidle
        (show _ = m₀.size from rfl) (Table.tops_given m₀.tops).symm .given
      obtain ⟨w', hcomes, -, -, hsteps⟩ := hwarm _ ⟨rfl, .refl _⟩ rfl rfl rfl
      have hnew : S.tops.lookup id = none := by
        rw [← htops]
        refine (heval.keeps hidle).idle id ?_
        rw [heval.frame.2.2]
        exact .head _
      refine ⟨⟨id, vs, k' + 1⟩ :: S, .cons hS hnew hd hbody ht (by exact rfl) rfl hcomes ?_, vs, ?_⟩
      · rw [hsteps]
        dsimp only
        omega
      · rw [Table.lookup_cons, if_pos rfl]

/-- There is a settled table with the values of all top-level definitions that can be reached. -/
theorem Provided.exists_table (h : Provided p m₀) (hresolve : ∀ id, p.resolve id = id) :
    ∃ T : Table, Settled p m₀ T ∧ ∀ id ∈ p.reachable, ∀ d t, p.defns[id]? = some d →
      d.body = .top t → ∃ vs, T.tops.lookup id = some vs := by
  have hone (id : DefnId) (hid : id ∈ p.reachable) {d : Defn} {t : TopLevel}
      (hd : p.defns[id]? = some d) (hbody : d.body = .top t) :
      ∃ T : Table, Settled p m₀ T ∧ ∃ vs, T.tops.lookup id = some vs := by
    cases hi : m₀.tops.lookup id with
    | some vs => exact ⟨_, .given, vs, by rw [Table.tops_given, hi]⟩
    | none =>
        obtain ⟨⟨vals, m, hrun⟩, hquiet⟩ := h.silent id hid d t hd hbody hi
        exact exists_settled hresolve h.toAtRest hd hbody hi hrun hquiet
  have hall (ids : List DefnId) (hids : ids ⊆ p.reachable) : ∃ T : Table, Settled p m₀ T ∧
      ∀ id ∈ ids, ∀ d t, p.defns[id]? = some d → d.body = .top t →
        ∃ vs, T.tops.lookup id = some vs := by
    induction ids with
    | nil => exact ⟨_, .given, fun _ h => nomatch h⟩
    | cons id ids ih =>
        obtain ⟨T, hT, hvals⟩ := ih fun i hi => hids (.tail _ hi)
        by_cases htop : ∃ d t, p.defns[id]? = some d ∧ d.body = .top t
        · obtain ⟨d, t, hd, hbody⟩ := htop
          obtain ⟨S, hS, vs, hvs⟩ := hone id (hids (.head _)) hd hbody
          obtain ⟨U, hU, hSU, hTU⟩ := hS.merge h.toAtRest hT
          refine ⟨U, hU, fun i hi d' t' hd' hbody' => ?_⟩
          rcases List.mem_cons.mp hi with rfl | hi
          · exact ⟨vs, hSU _ _ hvs⟩
          · obtain ⟨vs', hvs'⟩ := hvals i hi d' t' hd' hbody'
            exact ⟨vs', hTU _ _ hvs'⟩
        · refine ⟨T, hT, fun i hi d' t' hd' hbody' => ?_⟩
          rcases List.mem_cons.mp hi with rfl | hi
          · exact absurd ⟨d', t', hd', hbody'⟩ htop
          · exact hvals i hi d' t' hd' hbody'
  exact hall p.reachable fun _ h => h

end Silent

/-- Do the top-level definitions that can be reached and have no values yet return within some steps,
with nothing to be seen of it? -/
def silentWithin (p : Program) (m : Machine) (n : Nat) : Bool :=
  p.reachable.all fun id =>
    match (p.defns[id]?).map Defn.body with
    | some (.top _) =>
      match loop p n (start p m id []).1 (start p m id []).2 with
      | (.ok _, _) => decide (LoopAllowed p (fun _ t => t.leavesTrace = false) n
          (start p m id []).1 (start p m id []).2)
      | _ => (m.tops.lookup id).isSome
    | _ => true

theorem provided_of_within {p : Program} {m : Machine} (hm : AtRest m) {n : Nat}
    (h : silentWithin p m n = true) : Provided p m := by
  refine ⟨hm, fun id hid d t hd ht hnone => ?_⟩
  have hid := List.all_eq_true.mp h id hid
  rw [hd, Option.map_some, ht] at hid
  dsimp only at hid
  split at hid
  · rename_i vals m' hloop
    exact ⟨⟨vals, m', n, hloop⟩, .of_loop hloop (of_decide_eq_true hid)⟩
  · rw [hnone] at hid
    cases hid

theorem silentTops_of_within {p : Program} {size : Int} {n : Nat}
    (h : silentWithin p (.new size 0) n = true) : SilentTops p size := fun id hid d t hd ht =>
  (provided_of_within (atRest_new size) h).silent id hid d t hd ht rfl

end Mil.Machine
