import Mathlib.Algebra.GroupWithZero.Nat
import Mathlib.Data.List.Basic
import Mathlib.Data.List.Perm.Subperm
import Mil.Proofs.Rtl.Graph

/-!
The sets of live registers solve their equations. A pass through the graph makes no set smaller, and
what a pass finds are registers that some instruction reads; so the passes come to an end within the
bound, and the sets that they end with are what one more pass makes of them.
-/

namespace Mil.Rtl

/-! ### Sets of registers -/

namespace RegSet

variable {r x : Reg} {s t : RegSet} {rs : List Reg}

/-- A set lists its registers in increasing order. -/
def Sorted (s : RegSet) : Prop := s.Pairwise (· < ·)

theorem mem_insert : x ∈ insert r s ↔ x = r ∨ x ∈ s := by
  induction s with
  | nil => exact List.mem_singleton.trans (or_iff_left List.not_mem_nil).symm
  | cons y s ih =>
      unfold insert
      split
      · exact List.mem_cons
      · split
        · rename_i heq
          rw [heq, List.mem_cons]
          tauto
        · rw [List.mem_cons, ih, List.mem_cons]
          tauto

theorem mem_insertAll : x ∈ insertAll s rs ↔ x ∈ s ∨ x ∈ rs := by
  induction rs generalizing s with
  | nil => exact (or_iff_left List.not_mem_nil).symm
  | cons r rs ih =>
      refine ih.trans ?_
      rw [mem_insert, List.mem_cons]
      tauto

theorem Sorted.insert (h : Sorted s) (r : Reg) : Sorted (RegSet.insert r s) := by
  induction s with
  | nil => exact List.pairwise_singleton _ _
  | cons y s ih =>
      obtain ⟨hy, hs⟩ := List.pairwise_cons.mp h
      unfold RegSet.insert
      split
      · rename_i hlt
        refine List.pairwise_cons.mpr ⟨fun x hx => ?_, h⟩
        rcases List.mem_cons.mp hx with rfl | hx
        · exact hlt
        · exact Int.lt_trans hlt (hy x hx)
      · rename_i hle
        split
        · exact h
        · rename_i hne
          refine List.pairwise_cons.mpr ⟨fun x hx => ?_, ih hs⟩
          rcases mem_insert.mp hx with rfl | hx
          · exact Int.lt_iff_le_and_ne.mpr ⟨Int.not_lt.mp hle, Ne.symm hne⟩
          · exact hy x hx

theorem Sorted.insertAll (h : Sorted s) (rs : List Reg) : Sorted (insertAll s rs) := by
  induction rs generalizing s with
  | nil => exact h
  | cons r rs ih => exact ih (h.insert r)

theorem Sorted.nodup (h : Sorted s) : s.Nodup := h.imp fun hlt => Int.ne_of_lt hlt

/-- A set that holds all of another is larger or the same. -/
theorem Sorted.length_lt_or_eq (hs : Sorted s) (ht : Sorted t) (hst : s ⊆ t) :
    s.length < t.length ∨ s = t := by
  by_cases hlen : s.length < t.length
  · exact .inl hlen
  · have hperm := (List.subperm_of_subset hs.nodup hst).perm_of_length_le (Nat.le_of_not_lt hlen)
    exact .inr (hperm.eq_of_pairwise (fun a b _ _ hab hba => absurd (Int.lt_trans hab hba) (Int.lt_irrefl a)) hs ht)

end RegSet

/-! ### Passes -/

namespace Live

open RegSet

variable {g : Graph} {live live' : Live} {i : Instr} {r : Reg} {U : List Reg}

theorem mem_foldl {ns : List Node} {s : RegSet} :
    r ∈ ns.foldl (fun s n => insertAll s (live.before n)) s ↔
      r ∈ s ∨ ∃ n ∈ ns, r ∈ live.before n := by
  induction ns generalizing s with
  | nil => simp
  | cons n ns ih =>
      refine ih.trans ?_
      rw [mem_insertAll]
      simp only [List.mem_cons, exists_eq_or_imp]
      tauto

theorem mem_after : r ∈ live.after i ↔ ∃ n ∈ i.successors, r ∈ live.before n :=
  mem_foldl.trans (or_iff_right List.not_mem_nil)

theorem sorted_after (live : Live) (i : Instr) : Sorted (live.after i) := by
  unfold after
  generalize i.successors = ns
  have hfold : ∀ s : RegSet, Sorted s →
      Sorted (ns.foldl (fun s n => insertAll s (live.before n)) s) := by
    induction ns with
    | nil => exact fun s hs => hs
    | cons n ns ih => exact fun s hs => ih _ (hs.insertAll _)
  exact hfold [] .nil

theorem mem_through {out : RegSet} : r ∈ through i out ↔ (r ∈ out ∧ r ∉ i.defs) ∨ r ∈ i.uses := by
  unfold through
  rw [mem_insertAll, List.mem_filter, decide_eq_true_iff]

theorem sorted_through {out : RegSet} (h : Sorted out) (i : Instr) : Sorted (through i out) :=
  Sorted.insertAll (h.filter _) _

/-- The same nodes have larger sets or the same. -/
def Grows (live live' : Live) : Prop :=
  List.Forall₂ (fun q q' => q.1 = q'.1 ∧ q.2 ⊆ q'.2) live live'

theorem Grows.before (h : Grows live live') (n : Node) : live.before n ⊆ live'.before n := by
  unfold Live.before
  induction h with
  | nil => exact fun _ hr => hr
  | @cons q q' live live' hq _ ih =>
      obtain ⟨k, s⟩ := q
      obtain ⟨k', s'⟩ := q'
      obtain ⟨rfl, hs⟩ := hq
      rw [lookup_cons_ite, lookup_cons_ite]
      split
      · exact hs
      · exact ih

theorem Grows.append {a a' : Live} (ha : Grows a a') (h : Grows live live') :
    Grows (a ++ live) (a' ++ live') :=
  List.rel_append ha h

theorem Grows.round (h : Grows live live') (g : Graph) : Grows (round live g) (round live' g) := by
  induction g with
  | nil => exact .nil
  | cons q g ih =>
      obtain ⟨n, i⟩ := q
      refine .cons ⟨rfl, fun r hr => ?_⟩ ih
      refine mem_through.mpr ((mem_through.mp hr).imp_left fun ⟨hr, hdef⟩ => ⟨?_, hdef⟩)
      obtain ⟨m, hm, hr⟩ := mem_after.mp hr
      exact mem_after.mpr ⟨m, hm, (ih.append h).before m hr⟩

/-- The sets are in order and hold only some registers. -/
def Within (U : List Reg) (live : Live) : Prop := ∀ q ∈ live, Sorted q.2 ∧ q.2 ⊆ U

theorem Within.before (h : Within U live) (n : Node) : live.before n ⊆ U := by
  unfold Live.before
  cases hs : live.lookup n with
  | none => exact List.nil_subset _
  | some s => exact (h _ (mem_of_lookup hs)).2

theorem Within.round (h : Within U live) (hU : ∀ q ∈ g, q.2.uses ⊆ U) : Within U (round live g) := by
  induction g with
  | nil => exact fun _ hq => nomatch hq
  | cons q g ih =>
      obtain ⟨n, i⟩ := q
      have hrest := ih fun q hq => hU q (.tail _ hq)
      have hall : Within U (Live.round live g ++ live) := fun q hq =>
        (List.mem_append.mp hq).elim (hrest q) (h q)
      intro q hq
      rcases List.mem_cons.mp hq with rfl | hq
      · refine ⟨sorted_through (sorted_after _ i) i, fun r hr => ?_⟩
        rcases mem_through.mp hr with ⟨hr, -⟩ | hr
        · obtain ⟨m, -, hr⟩ := mem_after.mp hr
          exact hall.before m hr
        · exact hU _ (.head _) hr
      · exact hrest q hq

/-! ### Enough passes -/

/-- The sizes of all sets together. -/
def size (live : Live) : Nat := (live.map fun q => q.2.length).sum

theorem Within.size_le (h : Within U live) : size live ≤ live.length * U.length := by
  induction live with
  | nil => exact Nat.zero_le _
  | cons q live ih =>
      obtain ⟨hs, hU⟩ := h q (.head _)
      have hlen := hs.nodup.length_le_of_subset hU
      have hrest := ih fun q hq => h q (.tail _ hq)
      have hsize : size (q :: live) = q.2.length + size live := rfl
      rw [hsize, List.length_cons, Nat.add_mul, Nat.one_mul]
      omega

theorem Grows.size_lt_or_eq (h : Grows live live') (hlive : Within U live) (hlive' : Within U live') :
    size live < size live' ∨ live = live' := by
  induction h with
  | nil => exact .inr rfl
  | @cons q q' live live' hq _ ih =>
      obtain ⟨k, s⟩ := q
      obtain ⟨k', s'⟩ := q'
      obtain ⟨hk, hs⟩ := hq
      obtain rfl : k = k' := hk
      have hsize : size ((k, s) :: live) = s.length + size live := rfl
      have hsize' : size ((k, s') :: live') = s'.length + size live' := rfl
      rw [hsize, hsize']
      have hfirst : s.length < s'.length ∨ s = s' :=
        (hlive _ (.head _)).1.length_lt_or_eq (hlive' _ (.head _)).1 hs
      have hrest := ih (fun q hq => hlive q (.tail _ hq)) (fun q hq => hlive' q (.tail _ hq))
      rcases hfirst with hlt | rfl <;> rcases hrest with hlt' | rfl
      · exact .inl (by omega)
      · exact .inl (by omega)
      · exact .inl (by omega)
      · exact .inr rfl

theorem length_round (live : Live) (g : Graph) : (round live g).length = g.length := by
  induction g with
  | nil => rfl
  | cons q g ih => exact congrArg Nat.succ ih

/-- With fuel for all that the sets may still gain, the passes end in sets that one more pass leaves
alone. -/
theorem round_close {fuel : Nat} (hU : ∀ q ∈ g, q.2.uses ⊆ U) (hlive : Within U live)
    (hgrows : Grows live (round live g)) (hfuel : g.length * U.length < fuel + size live) :
    round (close g fuel live) g = close g fuel live := by
  induction fuel generalizing live with
  | zero =>
      have hsize := hlive.size_le
      rw [hgrows.length_eq, length_round] at hsize
      omega
  | succ fuel ih =>
      unfold close
      dsimp only
      split
      · assumption
      · rename_i hne
        refine ih (hlive.round hU) (hgrows.round g) ?_
        rcases hgrows.size_lt_or_eq hlive (hlive.round hU) with hlt | heq
        · omega
        · exact absurd heq.symm hne

theorem round_ofGraph (g : Graph) : round (ofGraph g) g = ofGraph g := by
  have hempty : ∀ (live : Live) (g : Graph), Grows (g.map fun q => (q.1, [])) (round live g) := by
    intro live g
    induction g with
    | nil => exact .nil
    | cons q g ih => exact .cons ⟨rfl, List.nil_subset _⟩ ih
  refine round_close (U := g.flatMap fun q => q.2.uses) ?_ ?_ (hempty _ g) ?_
  · exact fun q hq r hr => List.mem_flatMap.mpr ⟨q, hq, hr⟩
  · intro q hq
    obtain ⟨_, _, rfl⟩ := List.mem_map.mp hq
    exact ⟨.nil, List.nil_subset _⟩
  · exact Nat.lt_add_right _ (Nat.lt_succ_self _)

/-! ### The equations -/

/-- Sets that a pass leaves alone solve the equations of all instructions. -/
theorem before_of_round (hkeys : (g.map Prod.fst).Nodup) (hround : round live g = live) {n : Node}
    (hi : g.lookup n = some i) : live.before n = through i (live.after i) := by
  have hlive : (live.map Prod.fst).Nodup := by
    have hfst : ∀ g : Graph, (round live g).map Prod.fst = g.map Prod.fst := fun g => by
      induction g with
      | nil => rfl
      | cons q g ih => exact congrArg (q.1 :: ·) ih
    rw [← hround, hfst]
    exact hkeys
  -- what a pass has found further down stands in the sets already
  have hsuffix : ∀ (rest : Graph) (done : Live), done ++ round live rest = live →
      rest.lookup n = some i → live.lookup n = some (through i (live.after i)) := by
    intro rest
    induction rest with
    | nil => exact fun _ _ hi => nomatch hi
    | cons q rest ih =>
        obtain ⟨m, j⟩ := q
        intro done hdone hi
        have hfound : ∀ k, Live.before (round live rest ++ live) k = live.before k := fun k => by
          unfold Live.before
          rw [List.lookup_append]
          cases hk : (round live rest).lookup k with
          | none => rfl
          | some s =>
              rw [lookup_of_mem hlive (hdone ▸ List.mem_append_right _ (.tail _ (mem_of_lookup hk)))]
              rfl
        rcases lookup_cons_eq_some hi with ⟨rfl, rfl⟩ | hi
        · refine lookup_of_mem hlive ?_
          have hafter : Live.after (round live rest ++ live) i = live.after i := by
            unfold after
            simp only [hfound]
          rw [← hafter]
          conv => lhs; rw [← hdone]
          exact List.mem_append_right _ (.head _)
        · exact ih _ ((List.append_assoc done [_] _).trans hdone) hi
  unfold Live.before
  rw [hsuffix g [] hround hi]
  rfl

end Live

end Mil.Rtl
