import Mathlib.Algebra.Order.BigOperators.Group.List
import Mathlib.Algebra.Order.Ring.Nat
import Mil.Optimize.Unused
import Mil.Proofs.Program.Names
import Mil.Proofs.Program.Outline

/-!
Which parameters are needed. The rounds end in needs that another round does not change, since every
round before marks a parameter that was not marked. So a parameter that the body of its definition
needs is needed, and all parameters of an entrypoint are.
-/

namespace Mil.Optimize.Needs

/-! ### Elements that are kept -/

section Keep

variable {α : Type} {xs : List α} {bits : List Bool}

theorem keep_cons (x : α) (xs : List α) (b : Bool) (bits : List Bool) :
    keep (x :: xs) (b :: bits) = if b then x :: keep xs bits else keep xs bits := by
  cases b <;> rfl

theorem length_keep (h : xs.length = bits.length) : (keep xs bits).length = bits.count true := by
  induction xs generalizing bits with
  | nil =>
      cases bits with
      | nil => rfl
      | cons b bits => cases h
  | cons x xs ih =>
      cases bits with
      | nil => cases h
      | cons b bits =>
          have hlen := ih (Nat.succ.inj h)
          rw [keep_cons]
          cases b
          · simpa using hlen
          · simp [hlen]

/-- If as many elements are kept as there are, all are. -/
theorem keep_eq_self (h : xs.length = bits.length) (hall : bits.count true = bits.length) :
    keep xs bits = xs := by
  induction xs generalizing bits with
  | nil => rfl
  | cons x xs ih =>
      cases bits with
      | nil => cases h
      | cons b bits =>
          have hb : b = true := (List.count_eq_length.mp hall b (.head _)).symm
          subst hb
          rw [keep_cons, if_pos rfl, ih (Nat.succ.inj h)]
          rw [List.count_cons_self, List.length_cons] at hall
          exact Nat.succ.inj hall

end Keep

/-! ### Marks -/

section Mark

variable {operands : List Atom} {before vs : List Temp} {bits : List Bool}

theorem length_mark (operands : List Atom) (before vs : List Temp) (bits : List Bool) :
    (mark operands before vs bits).length = bits.length := by
  induction vs generalizing before bits with
  | nil => rfl
  | cons v vs ih =>
      cases bits with
      | nil => rfl
      | cons b bits => rw [mark, List.length_cons, ih, List.length_cons]

/-- Marks are only added. -/
theorem count_le_mark (operands : List Atom) (before vs : List Temp) (bits : List Bool) :
    bits.count true ≤ (mark operands before vs bits).count true := by
  induction vs generalizing before bits with
  | nil => exact Nat.le_refl _
  | cons v vs ih =>
      cases bits with
      | nil => exact Nat.le_refl _
      | cons b bits =>
          have hrest := ih (v :: before) bits
          rw [mark]
          cases b
          · exact Nat.le_trans (by simpa using hrest) (List.count_le_count_cons ..)
          · simpa using hrest

/-- If no mark is added, nothing changes. -/
theorem mark_eq_self (h : (mark operands before vs bits).count true = bits.count true) :
    mark operands before vs bits = bits := by
  induction vs generalizing before bits with
  | nil => rfl
  | cons v vs ih =>
      cases bits with
      | nil => rfl
      | cons b bits =>
          have hle := count_le_mark operands (v :: before) vs bits
          rw [mark] at h ⊢
          cases b
          · cases hnew : (operands.contains (.temp v) && decide (v ∉ before)) with
            | true =>
                rw [hnew] at h
                simp at h
                omega
            | false =>
                rw [hnew] at h
                rw [ih (by simpa using h)]
                rfl
          · rw [Bool.true_or] at h ⊢
            rw [ih (by simpa using h)]

/-- If nothing changes, the parameters among the operands are marked. -/
theorem marked_of_mark (h : mark operands before vs bits = bits) (hlen : bits.length = vs.length)
    (hnodup : vs.Nodup) {v : Temp} (hv : v ∈ vs) (hbefore : v ∉ before)
    (hmem : .temp v ∈ operands) : (v, true) ∈ vs.zip bits := by
  induction vs generalizing before bits with
  | nil => cases hv
  | cons u vs ih =>
      cases bits with
      | nil => cases hlen
      | cons b bits =>
          rw [mark] at h
          obtain ⟨hhead, hrest⟩ := List.cons.inj h
          obtain ⟨hu, hnodup⟩ := List.nodup_cons.mp hnodup
          rcases List.mem_cons.mp hv with rfl | hv'
          · have hb : b = true := by
              rw [← hhead]
              simp [hmem, hbefore]
            rw [hb]
            exact .head _
          · have hne : v ∉ u :: before := by
              intro hmem'
              rcases List.mem_cons.mp hmem' with rfl | hmem'
              · exact hu hv'
              · exact hbefore hmem'
            exact .tail _ (ih hrest (Nat.succ.inj hlen) hnodup hv' hne)

end Mark

/-! ### Rounds -/

section Rounds

variable {p : Program} {needs : Needs}

/-- The number of parameters that are marked. -/
def marks (needs : Needs) : Nat := (needs.map fun q => q.2.count true).sum

/-- The number of parameters. -/
def room (needs : Needs) : Nat := (needs.map fun q => q.2.length).sum

theorem marks_le_room (needs : Needs) : needs.marks ≤ needs.room :=
  List.sum_le_sum fun _ _ => List.count_le_length

theorem length_update (p : Program) (needs : Needs) (id : DefnId) (bits : List Bool) :
    (update p needs id bits).length = bits.length := by
  unfold update
  split
  · split
    · rfl
    · exact length_mark _ _ _ _
  · rfl

theorem count_le_update (p : Program) (needs : Needs) (id : DefnId) (bits : List Bool) :
    bits.count true ≤ (update p needs id bits).count true := by
  unfold update
  split
  · split
    · exact Nat.le_refl _
    · exact count_le_mark _ _ _ _
  · exact Nat.le_refl _

theorem update_eq_self {id : DefnId} {bits : List Bool}
    (h : (update p needs id bits).count true = bits.count true) : update p needs id bits = bits := by
  unfold update at h ⊢
  cases hd : p.defns[id]? with
  | none => rfl
  | some d =>
      rw [hd] at h
      dsimp only at h ⊢
      cases hentry : d.entry with
      | true => rfl
      | false =>
          rw [hentry] at h
          exact mark_eq_self h

theorem room_round (p : Program) (needs : Needs) : (round p needs).room = needs.room := by
  unfold room round
  rw [List.map_map]
  congr 1
  exact List.map_congr_left fun q _ => length_update p needs q.1 q.2

/-- A round that marks no parameter changes nothing. -/
theorem marks_lt_round (h : round p needs ≠ needs) : needs.marks < (round p needs).marks := by
  have hround : (round p needs).marks =
      (needs.map fun q => (update p needs q.1 q.2).count true).sum := by
    unfold marks round
    rw [List.map_map]
    rfl
  rw [hround]
  have hex : ∃ q ∈ needs, (update p needs q.1 q.2).count true ≠ q.2.count true := by
    by_contra hnone
    refine h ?_
    have hsame : needs.map (fun q => (q.1, update p needs q.1 q.2)) = needs.map id :=
      List.map_congr_left fun q hq => by
        have hcount := by_contra fun hne => hnone ⟨q, hq, hne⟩
        rw [update_eq_self hcount]
        rfl
    rw [List.map_id] at hsame
    exact hsame
  obtain ⟨q, hq, hne⟩ := hex
  refine List.sum_lt_sum _ _ (fun r _ => count_le_update p needs r.1 r.2) ⟨q, hq, ?_⟩
  exact Nat.lt_of_le_of_ne (count_le_update p needs q.1 q.2) (Ne.symm hne)

/-- With enough rounds, the last one changes nothing. -/
theorem round_close {fuel : Nat} (h : needs.room < needs.marks + fuel) :
    round p (close p fuel needs) = close p fuel needs := by
  induction fuel generalizing needs with
  | zero => exact absurd h (Nat.not_lt.mpr (marks_le_room needs))
  | succ fuel ih =>
      unfold close
      dsimp only
      split
      · rename_i heq
        exact heq
      · rename_i hne
        have hlt := marks_lt_round hne
        refine ih ?_
        rw [room_round]
        omega

theorem lookup_round (p : Program) (needs : Needs) (id : DefnId) :
    (round p needs).lookup id = (needs.lookup id).map (update p needs id) :=
  lookup_map_snd (fun q => update p needs q.1 q.2) id

/-- What holds of each entry and is kept by every round holds in the end. -/
theorem lookup_close {P : DefnId → List Bool → Prop}
    (hP : ∀ needs id bits, P id bits → P id (update p needs id bits))
    (h : ∀ id bits, needs.lookup id = some bits → P id bits) (fuel : Nat) {id : DefnId}
    {bits : List Bool} (hbits : (close p fuel needs).lookup id = some bits) : P id bits := by
  induction fuel generalizing needs with
  | zero => exact h id bits hbits
  | succ fuel ih =>
      unfold close at hbits
      dsimp only at hbits
      split at hbits
      · exact h id bits hbits
      · refine ih (fun i bs hi => ?_) hbits
        rw [lookup_round] at hi
        obtain ⟨bs₀, hbs₀, rfl⟩ := Option.map_eq_some_iff.mp hi
        exact hP needs i bs₀ (h i bs₀ hbs₀)

theorem isSome_lookup_close (fuel : Nat) (needs : Needs) (id : DefnId) :
    ((close p fuel needs).lookup id).isSome = (needs.lookup id).isSome := by
  induction fuel generalizing needs with
  | zero => rfl
  | succ fuel ih =>
      unfold close
      dsimp only
      split
      · rfl
      · rw [ih, lookup_round, Option.isSome_map]

theorem keys_close (p : Program) (fuel : Nat) (needs : Needs) :
    (close p fuel needs).map Prod.fst = needs.map Prod.fst := by
  induction fuel generalizing needs with
  | zero => rfl
  | succ fuel ih =>
      unfold close
      dsimp only
      split
      · rfl
      · rw [ih, round, List.map_map]
        rfl

end Rounds

/-! ### The least needs -/

section Least

variable {p : Program} {ids : List DefnId} {id : DefnId} {d : Defn} {bits : List Bool}

theorem lookup_start (hd : p.defns[id]? = some d) : (start p ids).lookup id =
    if id ∈ ids ∧ hasParams d.body then some (d.body.params.map fun _ => d.entry) else none := by
  have hstart : start p ids = ids.filterMap fun i => ((p.defns[i]?).bind fun e =>
      if hasParams e.body then some (e.body.params.map fun _ => e.entry) else none).map
        fun bits => (i, bits) := by
    refine List.filterMap_congr fun i _ => ?_
    cases p.defns[i]? with
    | none => rfl
    | some e =>
        dsimp only [Bind.bind, Option.bind]
        split <;> rfl
  rw [hstart, lookup_filterMap_key, hd, Option.bind_some]
  by_cases hid : id ∈ ids <;> simp [hid]

/-- No definition has needs twice. -/
theorem nodup_keys_least (p : Program) (h : ids.Nodup) : ((least p ids).map Prod.fst).Nodup := by
  have hkey {i j : DefnId} (hj : j ∈ ((p.defns[i]?).bind fun d =>
      if hasParams d.body then some (i, d.body.params.map fun _ => d.entry) else none).map
        Prod.fst) : i = j := by
    cases hd : p.defns[i]? with
    | none =>
        rw [hd] at hj
        cases hj
    | some d =>
        rw [hd, Option.bind_some] at hj
        split at hj
        · exact Option.some.inj hj
        · cases hj
  unfold least
  dsimp only
  rw [keys_close, start, List.map_filterMap]
  exact h.filterMap fun i i' j hi hi' => (hkey hi).trans (hkey hi').symm

/-- A reachable block or closure has needs, one for each parameter. -/
theorem exists_lookup_least (hid : id ∈ ids) (hd : p.defns[id]? = some d)
    (hparams : hasParams d.body = true) : ∃ bits, (least p ids).lookup id = some bits := by
  refine Option.isSome_iff_exists.mp ?_
  unfold least
  dsimp only
  rw [isSome_lookup_close, lookup_start hd, if_pos ⟨hid, hparams⟩]
  rfl

theorem lookup_least (h : (least p ids).lookup id = some bits) (hd : p.defns[id]? = some d) :
    bits.length = d.body.params.length ∧ (d.entry = true → bits.count true = bits.length) := by
  have hstart : ∀ i bs, (start p ids).lookup i = some bs → ∀ e, p.defns[i]? = some e →
      bs.length = e.body.params.length ∧ (e.entry = true → bs.count true = bs.length) := by
    intro i bs hbs e he
    rw [lookup_start he] at hbs
    split at hbs
    · cases hbs
      refine ⟨List.length_map _, fun hentry => ?_⟩
      rw [hentry, List.count_eq_length]
      simp
    · cases hbs
  refine lookup_close (P := fun i bs => ∀ e, p.defns[i]? = some e →
    bs.length = e.body.params.length ∧ (e.entry = true → bs.count true = bs.length))
    (fun needs i bs hbs e he => ?_) hstart _ h d hd
  obtain ⟨hlen, hentry⟩ := hbs e he
  refine ⟨(length_update p needs i bs).trans hlen, fun h => ?_⟩
  unfold update
  rw [he]
  dsimp only
  rw [if_pos h]
  exact hentry h

/-- Only the given definitions have needs. -/
theorem mem_of_lookup_least (h : (least p ids).lookup id = some bits) : id ∈ ids := by
  have hkey : id ∈ (least p ids).map Prod.fst := List.mem_map_of_mem (mem_of_lookup h)
  unfold least at hkey
  dsimp only at hkey
  rw [keys_close] at hkey
  obtain ⟨q, hq, rfl⟩ := List.mem_map.mp hkey
  obtain ⟨i, hi, hq⟩ := List.mem_filterMap.mp hq
  obtain ⟨d, -, hq⟩ := Option.bind_eq_some_iff.mp hq
  split at hq
  · cases hq
    exact hi
  · cases hq

/-- Only blocks and closures have needs. -/
theorem hasParams_of_lookup_least (h : (least p ids).lookup id = some bits) (hd : p.defns[id]? = some d) :
    hasParams d.body = true := by
  have hsome : ((least p ids).lookup id).isSome = true := Option.isSome_iff_exists.mpr ⟨bits, h⟩
  unfold least at hsome
  dsimp only at hsome
  rw [isSome_lookup_close, lookup_start hd] at hsome
  split at hsome
  · rename_i hmem
    exact hmem.2
  · cases hsome

/-- There are enough rounds: another one changes nothing. -/
theorem round_least (p : Program) (ids : List DefnId) : round p (least p ids) = least p ids := by
  refine round_close ?_
  have hroom : (start p ids).room = ((start p ids).flatMap Prod.snd).length := by
    rw [room, List.length_flatMap]
  omega

theorem update_least (h : (least p ids).lookup id = some bits) : update p (least p ids) id bits = bits := by
  have hlookup := lookup_round p (least p ids) id
  rw [round_least, h, Option.map_some] at hlookup
  exact (Option.some.inj hlookup).symm

/-- A parameter that the body needs is needed. -/
theorem mem_least (h : (least p ids).lookup id = some bits) (hd : p.defns[id]? = some d)
    (hnodup : d.body.params.Nodup) {v : Temp} (hv : v ∈ d.body.params)
    (hmem : .temp v ∈ (least p ids).defnOperands d.body) : (v, true) ∈ d.body.params.zip bits := by
  obtain ⟨hlen, hall⟩ := lookup_least h hd
  have hupdate := update_least h
  unfold update at hupdate
  rw [hd] at hupdate
  dsimp only at hupdate
  split at hupdate
  · rename_i hentry
    obtain ⟨i, hi, rfl⟩ := List.getElem_of_mem hv
    have hbit : ∀ b ∈ bits, true = b := List.count_eq_length.mp (hall hentry)
    refine List.mem_iff_getElem.mpr ⟨i, by rw [List.length_zip]; omega, ?_⟩
    rw [List.getElem_zip, ← hbit _ (List.getElem_mem (by omega))]
  · exact marked_of_mark hupdate hlen hnodup hv List.not_mem_nil hmem

end Least

end Mil.Optimize.Needs
