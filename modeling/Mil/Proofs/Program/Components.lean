import Mil.Proofs.Program.Linked

/-!
The strongly connected components, as low links find them. The vertices on the stack are those of the
components that are not complete. Each leads to all that were entered after it, and back to one that is
being visited and was entered before it. When a vertex is left from which nothing below it on the stack
can be seen, nothing above it leads out but to complete components, so the vertices down to it are all
that it leads to and that lead to it.

A component is complete after those that it leads to. So a reference from one component to another goes
to an earlier one.
-/

namespace Mil

namespace Successors

variable {next : Successors} {bound : Nat} {vertices active : List Nat} {v w : Nat}

/-- Each of two vertices can be reached from the other. -/
def Mutual (next : Successors) (v w : Nat) : Prop := Path next v w ∧ Path next w v

theorem Mutual.symm (h : Mutual next v w) : Mutual next w v := ⟨h.2, h.1⟩

theorem Mutual.trans {u v w : Nat} (h : Mutual next u v) (h' : Mutual next v w) :
    Mutual next u w :=
  ⟨h.1.trans h'.1, h'.2.trans h.2⟩

theorem popTo_append {top : List Nat} (rest : List Nat) (hv : v ∉ top) :
    popTo v (top ++ v :: rest) = (top ++ [v], rest) := by
  induction top with
  | nil => simp [popTo]
  | cons w top ih =>
      obtain ⟨hw, hv⟩ := not_or.mp (List.mem_cons.not.mp hv)
      simp [popTo, ih hv, Ne.symm hw]

theorem sorted_mergeSort {l : List Nat} (hl : l.Nodup) :
    (l.mergeSort (· ≤ ·)).Pairwise (· < ·) := by
  have hle : (l.mergeSort (· ≤ ·)).Pairwise (· ≤ ·) :=
    (List.pairwise_mergeSort (fun a b c hab hbc => by simp at *; omega) (fun a b => by simp; omega)
      _).imp of_decide_eq_true
  have hne : (l.mergeSort (· ≤ ·)).Nodup := (List.mergeSort_perm _ _).nodup_iff.mpr hl
  exact (hle.and hne).imp fun h => Nat.lt_of_le_of_ne h.1 h.2

namespace Tarjan

variable {s t u : Tarjan} {low : Nat}

/-! ### What a search keeps -/

/-- What holds of a search while some vertices are being visited: each vertex that was entered is on the
stack or in one component, the stack is connected, and the components are complete. -/
structure Sound (next : Successors) (vertices active : List Nat) (s : Tarjan) : Prop where
  nodup : s.order.Nodup
  within : ∀ v ∈ s.order, v ∈ vertices
  parts : s.order.Perm (s.stack ++ s.found.flatten)
  onStack : ∀ g ∈ active, g ∈ s.stack
  forth : ∀ a ∈ s.stack, ∀ b ∈ s.stack, s.index a ≤ s.index b → Path next a b
  back : ∀ a ∈ s.stack, ∃ g ∈ active, s.index g ≤ s.index a ∧ Path next a g
  entered : ∀ a ∈ s.order, a ∉ active → ∀ w ∈ next a, w ∈ s.order
  complete : ∀ a ∈ s.found.flatten, ∀ w ∈ next a, w ∈ s.found.flatten
  classes : ∀ c ∈ s.found, c.Pairwise (· < ·) ∧ ∃ a ∈ c, ∀ w, w ∈ c ↔ Mutual next a w
  inOrder : s.found.Pairwise fun c d => ∀ a ∈ c, ∀ b ∈ d, b ∉ next a

theorem Sound.empty : Sound next vertices [] ⟨[], [], []⟩ where
  nodup := List.nodup_nil
  within := nofun
  parts := .nil
  onStack := nofun
  forth := nofun
  back := nofun
  entered := nofun
  complete := nofun
  classes := nofun
  inOrder := .nil

theorem Sound.mem_order (hs : s.Sound next vertices active) :
    v ∈ s.order ↔ v ∈ s.stack ∨ v ∈ s.found.flatten :=
  hs.parts.mem_iff.trans List.mem_append

theorem Sound.mem_of_stack (hs : s.Sound next vertices active) (hv : v ∈ s.stack) : v ∈ s.order :=
  hs.mem_order.mpr (.inl hv)

theorem Sound.nodup_parts (hs : s.Sound next vertices active) :
    (s.stack ++ s.found.flatten).Nodup :=
  hs.parts.nodup_iff.mp hs.nodup

theorem Sound.notMem_found (hs : s.Sound next vertices active) (hv : v ∈ s.stack) :
    v ∉ s.found.flatten :=
  fun h => (List.nodup_append.mp hs.nodup_parts).2.2 v hv v h rfl

theorem Sound.nodup_stack (hs : s.Sound next vertices active) : s.stack.Nodup :=
  (List.nodup_append.mp hs.nodup_parts).1

/-- Paths stay in the components that are complete. -/
theorem Sound.mem_found_of_path (hs : s.Sound next vertices active) (hv : v ∈ s.found.flatten)
    (hpath : Path next v w) : w ∈ s.found.flatten := by
  induction hpath with
  | refl => exact hv
  | tail _ hstep ih => exact hs.complete _ ih _ hstep

theorem index_lt (hv : v ∈ s.order) : s.index v < s.order.length := List.idxOf_lt_length_iff.mpr hv

/-- What a search does in between: it enters vertices, finds components and leaves the stack as it was
or adds to it. -/
structure Grows (s t : Tarjan) : Prop where
  order : s.order <+: t.order
  stack : s.stack <:+ t.stack
  found : s.found <+: t.found

theorem Grows.refl (s : Tarjan) : s.Grows s :=
  ⟨List.prefix_refl _, List.suffix_refl _, List.prefix_refl _⟩

theorem Grows.trans (h : s.Grows t) (h' : t.Grows u) : s.Grows u :=
  ⟨h.order.trans h'.order, h.stack.trans h'.stack, h.found.trans h'.found⟩

theorem grows_enter (s : Tarjan) (v : Nat) : s.Grows (s.enter v) :=
  ⟨List.prefix_append _ _, List.suffix_cons _ _, List.prefix_refl _⟩

theorem Grows.index_eq (h : s.Grows t) (hv : v ∈ s.order) : t.index v = s.index v := by
  obtain ⟨l, hl⟩ := h.order
  rw [index, ← hl, List.idxOf_append_of_mem hv, index]

theorem Grows.le_index (h : s.Grows t) (hv : v ∉ s.order) : s.order.length ≤ t.index v := by
  obtain ⟨l, hl⟩ := h.order
  rw [index, ← hl, List.idxOf_append_of_notMem hv]
  omega

/-- What was entered before and is on the stack was so before. -/
theorem Grows.mem_stack (h : s.Grows t) (hs : s.Sound next vertices active) {active' : List Nat}
    (ht : t.Sound next vertices active') (hv : v ∈ t.stack) (hold : v ∈ s.order) : v ∈ s.stack := by
  refine (hs.mem_order.mp hold).resolve_right fun hfound => ht.notMem_found hv ?_
  obtain ⟨new, hnew⟩ := h.found
  rw [← hnew, List.flatten_append]
  exact List.mem_append_left _ hfound

/-! ### Entering a vertex -/

theorem index_enter (hnew : v ∉ s.order) : (s.enter v).index v = s.order.length := by
  rw [index, enter, List.idxOf_append_of_notMem hnew, List.idxOf_cons_self, Nat.add_zero]

/-- A vertex is entered to which all that are being visited lead. -/
theorem Sound.enter (hs : s.Sound next vertices active) (hv : v ∈ vertices) (hnew : v ∉ s.order)
    (hactive : ∀ g ∈ active, Path next g v) : (s.enter v).Sound next vertices (v :: active) := by
  have hgrow := grows_enter s v
  have hold : ∀ a ∈ s.stack, a ∈ s.order := fun _ ha => hs.mem_of_stack ha
  have hindex : ∀ a ∈ s.stack, (s.enter v).index a = s.index a :=
    fun a ha => hgrow.index_eq (hold a ha)
  constructor
  case nodup =>
    refine List.nodup_append.mpr ⟨hs.nodup, List.nodup_singleton v, ?_⟩
    rintro a ha b hb rfl
    exact hnew (List.mem_singleton.mp hb ▸ ha)
  case within =>
    exact List.forall_mem_append.mpr ⟨hs.within, List.forall_mem_singleton.mpr hv⟩
  case parts => exact (List.perm_append_singleton v s.order).trans (hs.parts.cons v)
  case onStack => exact List.forall_mem_cons.mpr ⟨.head _, fun g hg => .tail _ (hs.onStack g hg)⟩
  case forth =>
    refine List.forall_mem_cons.mpr ⟨List.forall_mem_cons.mpr ⟨fun _ => .refl, fun b hb hle => ?_⟩,
      fun a ha => List.forall_mem_cons.mpr ⟨fun _ => ?_, fun b hb hle => ?_⟩⟩
    · -- the new vertex has the greatest index
      rw [index_enter hnew, hindex b hb] at hle
      exact absurd (index_lt (hold b hb)) (by omega)
    · obtain ⟨g, hg, -, hpath⟩ := hs.back a ha
      exact hpath.trans (hactive g hg)
    · rw [hindex a ha, hindex b hb] at hle
      exact hs.forth a ha b hb hle
  case back =>
    refine List.forall_mem_cons.mpr ⟨⟨v, .head _, Nat.le_refl _, .refl⟩, fun a ha => ?_⟩
    obtain ⟨g, hg, hle, hpath⟩ := hs.back a ha
    exact ⟨g, .tail _ hg, by rwa [hindex a ha, hindex g (hs.onStack g hg)], hpath⟩
  case entered =>
    intro a ha hidle w hw
    obtain ⟨hav, hidle⟩ := not_or.mp (List.mem_cons.not.mp hidle)
    have ha := (List.mem_append.mp ha).resolve_right fun h => hav (List.mem_singleton.mp h)
    exact List.mem_append_left _ (hs.entered a ha hidle w hw)
  case complete => exact hs.complete
  case classes => exact hs.classes
  case inOrder => exact hs.inOrder

/-! ### Low links -/

/-- What a low link of a vertex is that is visited next: the index that the vertex gets, or that of one
on the stack to which it leads. -/
def LowLink (next : Successors) (s : Tarjan) (v low : Nat) : Prop :=
  low = s.order.length ∨ ∃ z ∈ s.stack, s.index z = low ∧ Path next v z

theorem LowLink.le (h : s.LowLink next v low) (hs : s.Sound next vertices active) :
    low ≤ s.order.length := by
  rcases h with rfl | ⟨z, hz, rfl, -⟩
  · exact Nat.le_refl _
  · exact Nat.le_of_lt (index_lt (hs.mem_of_stack hz))

/-- The result of a visit: no reference from what it left on the stack goes below the low link. -/
structure Visited (next : Successors) (vertices active : List Nat) (s : Tarjan) (v : Nat)
    (result : Tarjan × Nat) : Prop where
  sound : result.1.Sound next vertices active
  grows : s.Grows result.1
  mem : v ∈ result.1.order
  seen : ∀ a ∈ result.1.stack, a ∉ s.order → ∀ w ∈ next a, w ∈ s.stack → result.2 ≤ s.index w
  low : s.LowLink next v result.2

/-- The progress of a visit when some of the successors have been followed. -/
structure Following (next : Successors) (vertices active : List Nat) (s : Tarjan) (v : Nat)
    (ws : List Nat) (result : Tarjan × Nat) : Prop where
  sound : result.1.Sound next vertices (v :: active)
  grows : (s.enter v).Grows result.1
  mem : ∀ w ∈ ws, w ∈ result.1.order
  seen : ∀ a ∈ result.1.stack, a ∉ s.order → ∀ w ∈ next a, (a = v → w ∈ ws) → w ∈ s.stack →
    result.2 ≤ s.index w
  low : s.LowLink next v result.2

variable {ws : List Nat} {result : Tarjan × Nat}

theorem Following.enter (hs : s.Sound next vertices active) (hv : v ∈ vertices) (hnew : v ∉ s.order)
    (hactive : ∀ g ∈ active, Path next g v) :
    Following next vertices active s v [] (s.enter v, s.order.length) where
  sound := hs.enter hv hnew hactive
  grows := .refl _
  mem := nofun
  seen a ha hanew w _ hmem := by
    rcases List.mem_cons.mp ha with rfl | ha
    · exact absurd (hmem rfl) List.not_mem_nil
    · exact absurd (hs.mem_of_stack ha) hanew
  low := .inl rfl

theorem Following.grows_from (h : Following next vertices active s v ws result) :
    s.Grows result.1 :=
  (grows_enter s v).trans h.grows

/-- The low link goes down to the index of a vertex on the stack. -/
theorem LowLink.min (h : s.LowLink next v low) (hs : s.Sound next vertices active) {active' : List Nat}
    (ht : t.Sound next vertices active') (hgrow : s.Grows t) {z : Nat} (hz : z ∈ t.stack)
    (hpath : Path next v z) : s.LowLink next v (min low (t.index z)) := by
  by_cases hold : z ∈ s.order
  · rcases Nat.le_total low (t.index z) with hle | hle
    · rwa [Nat.min_eq_left hle]
    · rw [Nat.min_eq_right hle]
      exact .inr ⟨z, hgrow.mem_stack hs ht hz hold, (hgrow.index_eq hold).symm, hpath⟩
  · rwa [Nat.min_eq_left (Nat.le_trans (h.le hs) (hgrow.le_index hold))]

/-- A successor was entered before. -/
theorem Following.skip (h : Following next vertices active s v ws result) (hold : w ∈ result.1.order)
    (hle : low ≤ result.2) (hseen : w ∈ s.stack → low ≤ s.index w) (hlow : s.LowLink next v low) :
    Following next vertices active s v (ws ++ [w]) (result.1, low) where
  sound := h.sound
  grows := h.grows
  mem := List.forall_mem_append.mpr ⟨h.mem, List.forall_mem_singleton.mpr hold⟩
  seen a ha hnew x hx hmem hstack := by
    by_cases hxw : x = w
    · exact hxw ▸ hseen (hxw ▸ hstack)
    · refine Nat.le_trans hle (h.seen a ha hnew x hx (fun hav => ?_) hstack)
      exact (List.mem_append.mp (hmem hav)).resolve_right fun h => hxw (List.mem_singleton.mp h)
  low := hlow

/-- A successor is visited. -/
theorem Following.visit (h : Following next vertices active s v ws result)
    (hs : s.Sound next vertices active) (hw : w ∈ next v) (hnew : w ∉ result.1.order)
    {visited : Tarjan × Nat} (hvisit : Visited next vertices (v :: active) result.1 w visited) :
    Following next vertices active s v (ws ++ [w]) (visited.1, min result.2 visited.2) where
  sound := hvisit.sound
  grows := h.grows.trans hvisit.grows
  mem := List.forall_mem_append.mpr ⟨fun x hx => hvisit.grows.order.subset (h.mem x hx),
    List.forall_mem_singleton.mpr hvisit.mem⟩
  seen a ha hanew x hx hmem hstack := by
    have hxold : x ∈ s.order := hs.mem_of_stack hstack
    by_cases haold : a ∈ result.1.order
    · have ha := hvisit.grows.mem_stack h.sound hvisit.sound ha haold
      refine Nat.le_trans (Nat.min_le_left _ _) (h.seen a ha hanew x hx (fun hav => ?_) hstack)
      refine (List.mem_append.mp (hmem hav)).resolve_right fun hxw => hnew ?_
      exact List.mem_singleton.mp hxw ▸ h.grows_from.order.subset hxold
    · have hle := hvisit.seen a ha haold x hx (h.grows_from.stack.subset hstack)
      rw [h.grows_from.index_eq hxold] at hle
      exact Nat.le_trans (Nat.min_le_right _ _) hle
  low := by
    rcases hvisit.low with heq | ⟨z, hz, heq, hpath⟩
    · have hle := Nat.le_trans (h.low.le hs) h.grows_from.order.length_le
      rw [heq, Nat.min_eq_left hle]
      exact h.low
    · rw [← heq]
      exact h.low.min hs h.sound h.grows_from hz (.head hw hpath)

/-- A successor is followed. -/
theorem Following.follow (h : Following next vertices active s v ws result)
    (hs : s.Sound next vertices active) (hw : w ∈ next v) {visit : Tarjan → Nat → Tarjan × Nat}
    (hvisit : w ∉ result.1.order →
      Visited next vertices (v :: active) result.1 w (visit result.1 w)) :
    Following next vertices active s v (ws ++ [w]) (follow visit result w) := by
  rw [Successors.follow]
  split
  · rename_i hnew
    exact h.visit hs hw hnew (hvisit hnew)
  · rename_i hold
    have hold : w ∈ result.1.order := by_contra hold
    split
    · rename_i hstack
      refine h.skip hold (Nat.min_le_left _ _) (fun hw => ?_)
        (h.low.min hs h.sound h.grows_from hstack (.single hw))
      rw [h.grows_from.index_eq (hs.mem_of_stack hw)]
      exact Nat.min_le_right _ _
    · rename_i hstack
      exact h.skip hold (Nat.le_refl _) (fun hw => absurd (h.grows_from.stack.subset hw) hstack) h.low

/-! ### Leaving a vertex -/

section Leave

variable (h : Following next vertices active s v (next v) result) (hs : s.Sound next vertices active)
  (hnew : v ∉ s.order)

include h in
/-- All successors of what is not being visited any more have been entered. -/
theorem Following.mem_of_next {a : Nat} (ha : a ∈ result.1.order) (hidle : a ∉ active)
    (hw : w ∈ next a) : w ∈ result.1.order := by
  by_cases hav : a = v
  · exact h.mem w (hav ▸ hw)
  · exact h.sound.entered a ha (fun hmem => (List.mem_cons.mp hmem).elim hav hidle) w hw

include h hnew in
/-- The vertex itself has the least index of those that were entered during its visit. -/
theorem Following.index_eq : result.1.index v = s.order.length := by
  rw [h.grows.index_eq (List.mem_append_right _ (.head _)), index_enter hnew]

include h hs

/-- If nothing below the vertex was seen, what was entered during the visit leads to complete components
at most. -/
theorem Following.next_cases (hlow : result.2 = s.order.length) {a : Nat} (ha : a ∈ result.1.stack)
    (hanew : a ∉ s.order) (hw : w ∈ next a) :
    w ∈ result.1.stack ∧ w ∉ s.order ∨ w ∈ result.1.found.flatten := by
  have hidle : a ∉ active := fun hmem => hanew (hs.mem_of_stack (hs.onStack a hmem))
  have haold : a ∈ result.1.order := h.sound.mem_of_stack ha
  refine (h.sound.mem_order.mp (h.mem_of_next haold hidle hw)).imp_left fun hstack => ⟨hstack, ?_⟩
  intro hold
  have hle := h.seen a ha hanew w hw (fun hav => hav ▸ hw)
    (h.grows_from.mem_stack hs h.sound hstack hold)
  have hlt := index_lt hold
  omega

/-- Down to the vertex, the stack holds what was entered during the visit. -/
theorem Following.popTo_stack : ∃ popped, popTo v result.1.stack = (popped, s.stack) ∧
    result.1.stack = popped ++ s.stack ∧
      ∀ a, a ∈ popped ↔ a ∈ result.1.stack ∧ a ∉ s.order := by
  obtain ⟨top, htop⟩ := h.grows.stack
  have hstack : result.1.stack = (top ++ [v]) ++ s.stack := by
    rw [← htop, List.append_assoc]
    rfl
  have hnodup := h.sound.nodup_stack
  rw [hstack] at hnodup
  obtain ⟨hpopped, -, hapart⟩ := List.nodup_append.mp hnodup
  have hv : v ∉ top := fun hv => (List.nodup_append.mp hpopped).2.2 v hv v (.head _) rfl
  have hsub : ∀ a ∈ top ++ [v], a ∈ result.1.stack := fun a ha => hstack ▸ List.mem_append_left _ ha
  refine ⟨top ++ [v], ?_, hstack, fun a => ⟨fun ha => ⟨hsub a ha, fun hold => ?_⟩, ?_⟩⟩
  · rw [← htop]
    exact popTo_append s.stack hv
  · exact hapart a ha a (h.grows_from.mem_stack hs h.sound (hsub a ha) hold) rfl
  · rintro ⟨ha, hanew⟩
    rw [hstack] at ha
    exact (List.mem_append.mp ha).resolve_right fun ha => hanew (hs.mem_of_stack ha)

include hnew

/-- If nothing below the vertex was seen, what was entered during the visit and is on the stack is the
component of the vertex. -/
theorem Following.mutual_iff (hlow : result.2 = s.order.length) (hactive : ∀ g ∈ active, Path next g v)
    {a : Nat} : a ∈ result.1.stack ∧ a ∉ s.order ↔ Mutual next v a := by
  have hv : v ∈ result.1.stack := h.grows.stack.subset (.head _)
  constructor
  · rintro ⟨ha, hanew⟩
    constructor
    · refine h.sound.forth v hv a ha ?_
      rw [h.index_eq hnew]
      exact h.grows_from.le_index hanew
    · obtain ⟨g, hg, -, hpath⟩ := h.sound.back a ha
      rcases List.mem_cons.mp hg with rfl | hg
      · exact hpath
      · exact hpath.trans (hactive g hg)
  · rintro ⟨hforth, hback⟩
    have hend : a ∈ result.1.stack ∧ a ∉ s.order ∨ a ∈ result.1.found.flatten := by
      clear hback
      induction hforth with
      | refl => exact .inl ⟨hv, hnew⟩
      | tail _ hstep ih =>
          rcases ih with ⟨hb, hbnew⟩ | hb
          · exact h.next_cases hs hlow hb hbnew hstep
          · exact .inr (h.sound.complete _ hb _ hstep)
    -- nothing leads from a complete component back to the vertex
    exact hend.resolve_right fun ha => h.sound.notMem_found hv (h.sound.mem_found_of_path ha hback)

/-- If nothing below the vertex was seen, the stack down to it is a component. -/
theorem Following.sound_close (hlow : result.2 = s.order.length)
    (hactive : ∀ g ∈ active, Path next g v) {popped : List Nat}
    (hstack : result.1.stack = popped ++ s.stack)
    (hmem : ∀ a, a ∈ popped ↔ a ∈ result.1.stack ∧ a ∉ s.order) :
    Sound next vertices active { result.1 with
      stack := s.stack, found := result.1.found ++ [popped.mergeSort (· ≤ ·)] } := by
  have hsort : (popped.mergeSort (· ≤ ·)).Perm popped := List.mergeSort_perm _ _
  have hnew' : ∀ a, a ∈ popped.mergeSort (· ≤ ·) ↔ a ∈ result.1.stack ∧ a ∉ s.order := fun a =>
    hsort.mem_iff.trans (hmem a)
  have hclass : ∀ a, a ∈ popped.mergeSort (· ≤ ·) ↔ Mutual next v a := fun a =>
    (hnew' a).trans (h.mutual_iff hs hnew hlow hactive)
  have hflat : (result.1.found ++ [popped.mergeSort (· ≤ ·)]).flatten =
      result.1.found.flatten ++ popped.mergeSort (· ≤ ·) := by simp
  have hsub : ∀ a ∈ s.stack, a ∈ result.1.stack := fun a ha => h.grows_from.stack.subset ha
  have hindex : ∀ a ∈ s.stack, result.1.index a = s.index a := fun a ha =>
    h.grows_from.index_eq (hs.mem_of_stack ha)
  constructor
  case nodup => exact h.sound.nodup
  case within => exact h.sound.within
  case parts =>
    rw [hflat]
    refine h.sound.parts.trans ?_
    rw [hstack, List.append_assoc, ← List.append_assoc s.stack]
    exact List.perm_append_comm.trans (hsort.symm.append_left _)
  case onStack => exact hs.onStack
  case forth => exact fun a ha b hb => h.sound.forth a (hsub a ha) b (hsub b hb)
  case back =>
    intro a ha
    obtain ⟨g, hg, hle, hpath⟩ := hs.back a ha
    rw [← hindex a ha, ← hindex g (hs.onStack g hg)] at hle
    exact ⟨g, hg, hle, hpath⟩
  case entered => exact fun a ha hidle w hw => h.mem_of_next ha hidle hw
  case complete =>
    rw [hflat]
    refine List.forall_mem_append.mpr ⟨fun a ha w hw => ?_, fun a ha w hw => ?_⟩
    · exact List.mem_append_left _ (h.sound.complete a ha w hw)
    · obtain ⟨ha, hanew⟩ := (hnew' a).mp ha
      rcases h.next_cases hs hlow ha hanew hw with hw | hw
      · exact List.mem_append_right _ ((hnew' w).mpr hw)
      · exact List.mem_append_left _ hw
  case classes =>
    have hnodup : popped.Nodup := (List.nodup_append.mp (hstack ▸ h.sound.nodup_stack)).1
    exact List.forall_mem_append.mpr ⟨h.sound.classes, List.forall_mem_singleton.mpr
      ⟨sorted_mergeSort hnodup, v, (hclass v).mpr ⟨.refl, .refl⟩, hclass⟩⟩
  case inOrder =>
    refine List.pairwise_append.mpr ⟨h.sound.inOrder, List.pairwise_singleton _ _, ?_⟩
    intro c hc d hd a ha b hb hab
    rw [List.mem_singleton.mp hd] at hb
    -- what is left on the stack is not in a complete component, so nothing there leads to it
    refine h.sound.notMem_found ((hnew' b).mp hb).1 (h.sound.complete a ?_ b hab)
    exact List.mem_flatten.mpr ⟨c, hc, ha⟩

/-- If something below the vertex was seen, the vertex leads to one that is still being visited. -/
theorem Following.sound_keep (hlow : result.2 ≠ s.order.length) :
    result.1.Sound next vertices active where
  nodup := h.sound.nodup
  within := h.sound.within
  parts := h.sound.parts
  onStack := fun g hg => h.sound.onStack g (.tail _ hg)
  forth := h.sound.forth
  back a ha := by
    obtain ⟨g, hg, hle, hpath⟩ := h.sound.back a ha
    rcases List.mem_cons.mp hg with rfl | hg
    · obtain ⟨z, hz, -, hgz⟩ := h.low.resolve_left hlow
      obtain ⟨g', hg', hle', hzg'⟩ := hs.back z hz
      have hlt := index_lt (hs.mem_of_stack hz)
      rw [h.index_eq hnew] at hle
      refine ⟨g', hg', ?_, (hpath.trans hgz).trans hzg'⟩
      rw [h.grows_from.index_eq (hs.mem_of_stack (hs.onStack g' hg'))]
      omega
    · exact ⟨g, hg, hle, hpath⟩
  entered a ha hidle w hw := h.mem_of_next ha hidle hw
  complete := h.sound.complete
  classes := h.sound.classes
  inOrder := h.sound.inOrder

/-- A vertex is left when all its successors have been followed. -/
theorem Following.leave (hactive : ∀ g ∈ active, Path next g v) :
    Visited next vertices active s v
      (if result.2 = s.order.length then result.1.close v else result.1, result.2) := by
  have hv : v ∈ result.1.order := h.grows.order.subset (List.mem_append_right _ (.head _))
  split
  · rename_i hlow
    obtain ⟨popped, hpop, hstack, hmem⟩ := h.popTo_stack hs
    have hclose : result.1.close v = { result.1 with
        stack := s.stack, found := result.1.found ++ [popped.mergeSort (· ≤ ·)] } := by
      rw [Tarjan.close, hpop]
    rw [hclose]
    exact {
      sound := h.sound_close hs hnew hlow hactive hstack hmem
      grows := ⟨h.grows_from.order, List.suffix_refl _,
        h.grows_from.found.trans (List.prefix_append _ _)⟩
      mem := hv
      seen := fun a ha hanew => absurd (hs.mem_of_stack ha) hanew
      low := h.low }
  · rename_i hlow
    exact {
      sound := h.sound_keep hs hnew hlow
      grows := h.grows_from
      mem := hv
      seen := fun a ha hanew w hw => h.seen a ha hanew w hw fun hav => hav ▸ hw
      low := h.low }

end Leave

/-! ### The whole search -/

theorem follow_congr {visit visit' : Tarjan → Nat → Tarjan × Nat}
    (h : w ∉ result.1.order → visit result.1 w = visit' result.1 w) :
    follow visit result w = follow visit' result w := by
  rw [follow, follow]
  split
  · rename_i hnew
    rw [h hnew]
  · rfl

/-- With fuel for all that have not been entered, a vertex is visited to which all lead that are being
visited. More fuel changes nothing. -/
theorem visited_visit (hlt : ∀ v ∈ vertices, v < bound) (hnext : ∀ v w, w ∈ next v → w ∈ vertices)
    (fuel : Nat) (hs : s.Sound next vertices active) (hfuel : bound < s.order.length + fuel)
    (hv : v ∈ vertices) (hnew : v ∉ s.order) (hactive : ∀ g ∈ active, Path next g v) :
    Visited next vertices active s v (visit next fuel s v) ∧
      ∀ more, visit next (fuel + more) s v = visit next fuel s v := by
  induction fuel generalizing s v active with
  | zero =>
      have hle := length_le_of_nodup_of_lt hs.nodup fun v hv => hlt v (hs.within v hv)
      omega
  | succ fuel ih =>
      have hvisit {result : Tarjan × Nat} {w : Nat} {ws : List Nat} (hw : w ∈ next v)
          (h : Following next vertices active s v ws result) (hwnew : w ∉ result.1.order) :
          Visited next vertices (v :: active) result.1 w (visit next fuel result.1 w) ∧
            ∀ more, visit next (fuel + more) result.1 w = visit next fuel result.1 w := by
        refine ih h.sound ?_ (hnext v w hw) hwnew
          (List.forall_mem_cons.mpr ⟨.single hw, fun g hg => (hactive g hg).tail hw⟩)
        have hle := h.grows.order.length_le
        rw [Tarjan.enter, List.length_append, List.length_singleton] at hle
        omega
      have hfold (todo done : List Nat) (hdone : done ++ todo = next v) (result : Tarjan × Nat)
          (h : Following next vertices active s v done result) :
          Following next vertices active s v (next v) (todo.foldl (follow (visit next fuel)) result) ∧
            ∀ more, todo.foldl (follow (visit next (fuel + more))) result =
              todo.foldl (follow (visit next fuel)) result := by
        induction todo generalizing done result with
        | nil =>
            rw [List.append_nil] at hdone
            exact ⟨hdone ▸ h, fun _ => rfl⟩
        | cons w todo ihtodo =>
            have hw : w ∈ next v := hdone ▸ List.mem_append_right _ (.head _)
            have hdone' : done ++ [w] ++ todo = next v := by
              rw [← hdone, List.append_assoc]
              rfl
            obtain ⟨hall, hsame⟩ :=
              ihtodo _ hdone' _ (h.follow hs hw fun hwnew => (hvisit hw h hwnew).1)
            refine ⟨hall, fun more => ?_⟩
            rw [List.foldl_cons, follow_congr fun hwnew => (hvisit hw h hwnew).2 more]
            exact hsame more
      obtain ⟨hall, hsame⟩ := hfold (next v) [] rfl _ (.enter hs hv hnew hactive)
      refine ⟨hall.leave hs hnew hactive, fun more => ?_⟩
      rw [Nat.add_right_comm, visit, visit, hsame more]

/-- The search starts from each vertex in turn. -/
theorem sound_foldl_start (hlt : ∀ v ∈ vertices, v < bound)
    (hnext : ∀ v w, w ∈ next v → w ∈ vertices) (vs : List Nat) (hvs : ∀ v ∈ vs, v ∈ vertices)
    (hs : s.Sound next vertices []) :
    (vs.foldl (start next bound) s).Sound next vertices [] ∧
      s.Grows (vs.foldl (start next bound) s) ∧
      (∀ v ∈ vs, v ∈ (vs.foldl (start next bound) s).order) ∧
      ∀ more, vs.foldl (start next (bound + more)) s = vs.foldl (start next bound) s := by
  induction vs generalizing s with
  | nil => exact ⟨hs, .refl s, nofun, fun _ => rfl⟩
  | cons v vs ih =>
      obtain ⟨hv, hvs⟩ := List.forall_mem_cons.mp hvs
      have hstart : (start next bound s v).Sound next vertices [] ∧ s.Grows (start next bound s v) ∧
          v ∈ (start next bound s v).order ∧
          ∀ more, start next (bound + more) s v = start next bound s v := by
        simp only [start]
        split
        · rename_i hold
          exact ⟨hs, .refl s, hold, fun _ => rfl⟩
        · rename_i hnew
          obtain ⟨hvisit, hsame⟩ := visited_visit hlt hnext (bound + 1) hs (by omega) hv hnew nofun
          refine ⟨hvisit.sound, hvisit.grows, hvisit.mem, fun more => ?_⟩
          rw [Nat.add_right_comm, hsame more]
      obtain ⟨hsound, hgrows, hmem, hsame⟩ := hstart
      obtain ⟨hsound', hgrows', hmem', hsame'⟩ := ih hvs hsound
      refine ⟨hsound', hgrows.trans hgrows',
        List.forall_mem_cons.mpr ⟨hgrows'.order.subset hmem, hmem'⟩, fun more => ?_⟩
      rw [List.foldl_cons, hsame more, hsame' more, List.foldl_cons]

end Tarjan

section Components

variable (hlt : ∀ v ∈ vertices, v < bound) (hnext : ∀ v w, w ∈ next v → w ∈ vertices)

include hlt hnext

/-- The depth of the search has a bound: with more fuel the components are the same. -/
theorem components_fuel (more : Nat) :
    components next (bound + more) vertices = components next bound vertices :=
  congrArg Tarjan.found
    ((Tarjan.sound_foldl_start hlt hnext vertices (fun _ h => h) .empty).2.2.2 more)

/-- When the search ends, all vertices are in components. -/
theorem exists_sound_components : ∃ s : Tarjan, s.Sound next vertices [] ∧
    s.found = components next bound vertices ∧ ∀ v, v ∈ s.found.flatten ↔ v ∈ vertices := by
  obtain ⟨hs, -, hmem, -⟩ := Tarjan.sound_foldl_start hlt hnext vertices (fun _ h => h) .empty
  -- a vertex on the stack would lead to one that is being visited
  have hstack : ∀ a, a ∉ (vertices.foldl (start next bound) ⟨[], [], []⟩).stack := fun a ha => by
    obtain ⟨g, hg, -⟩ := hs.back a ha
    cases hg
  refine ⟨_, hs, rfl, fun v => ⟨fun hv => ?_, fun hv => ?_⟩⟩
  · exact hs.within v (hs.mem_order.mpr (.inr hv))
  · exact (hs.mem_order.mp (hmem v hv)).resolve_left (hstack v)

/-- Every vertex is a member of exactly one component. -/
theorem components_partition :
    (components next bound vertices).flatten.Nodup ∧
      ∀ v, v ∈ (components next bound vertices).flatten ↔ v ∈ vertices := by
  obtain ⟨s, hs, hfound, hmem⟩ := exists_sound_components hlt hnext
  rw [← hfound]
  exact ⟨(List.nodup_append.mp hs.nodup_parts).2.1, hmem⟩

/-- The components in their order: each is that of a vertex, and nothing in one leads to a later one. -/
theorem components_pairwise :
    (∀ c ∈ components next bound vertices, ∃ v ∈ vertices,
      c.Pairwise (· < ·) ∧ ∀ w, w ∈ c ↔ w ∈ vertices ∧ Mutual next v w) ∧
      (components next bound vertices).Pairwise fun c d => ∀ a ∈ c, ∀ b ∈ d, b ∉ next a := by
  obtain ⟨s, hs, hfound, hmem⟩ := exists_sound_components hlt hnext
  rw [← hfound]
  refine ⟨fun c hc => ?_, hs.inOrder⟩
  obtain ⟨hsorted, v, hv, hclass⟩ := hs.classes c hc
  have hin : ∀ w ∈ c, w ∈ vertices := fun w hw => (hmem w).mp (List.mem_flatten.mpr ⟨c, hc, hw⟩)
  refine ⟨v, hin v hv, hsorted, fun w => ⟨fun hw => ⟨hin w hw, (hclass w).mp hw⟩, fun hw => ?_⟩⟩
  exact (hclass w).mpr hw.2

end Components

end Successors

namespace Program

variable {p : Program} {ids : List DefnId}

theorem mem_of_successor {v w : DefnId} (h : w ∈ (p.dependencies v).filter fun d => d ∈ ids) : w ∈ ids :=
  of_decide_eq_true (List.mem_filter.mp h).2

/-- The components of some definitions hold each of them once. -/
theorem components_within (p : Program) {ids : List DefnId} (hids : ∀ id ∈ ids, id < p.defns.size) :
    (p.components ids).flatten.Nodup ∧ ∀ id, id ∈ (p.components ids).flatten ↔ id ∈ ids :=
  Successors.components_partition hids fun _ _ h => mem_of_successor h

/-- The components of all definitions hold every definition once. -/
theorem components_all (p : Program) :
    (p.components p.all).flatten.Nodup ∧
      ∀ id, id ∈ (p.components p.all).flatten ↔ id < p.defns.size := by
  have hall : ∀ id, id ∈ p.all ↔ id < p.defns.size := fun _ => List.mem_range
  obtain ⟨hnodup, hmem⟩ := p.components_within fun id h => (hall id).mp h
  exact ⟨hnodup, fun id => (hmem id).trans (hall id)⟩

/-- A reference from one of some definitions to another of them. -/
def RefersWithin (p : Program) (ids : List DefnId) (a b : DefnId) : Prop :=
  a ∈ ids ∧ b ∈ ids ∧ b ∈ p.dependencies a

/-- The references that the search for components follows. -/
theorem path_iff_refersWithin {a b : DefnId} (ha : a ∈ ids) :
    Successors.Path (fun id => (p.dependencies id).filter fun d => d ∈ ids) a b ↔
      Relation.ReflTransGen (p.RefersWithin ids) a b := by
  constructor
  · intro h
    have hend : b ∈ ids ∧ Relation.ReflTransGen (p.RefersWithin ids) a b := by
      induction h with
      | refl => exact ⟨ha, .refl⟩
      | tail _ hstep ih =>
          obtain ⟨hdep, hin⟩ := List.mem_filter.mp hstep
          exact ⟨of_decide_eq_true hin, ih.2.tail ⟨ih.1, of_decide_eq_true hin, hdep⟩⟩
    exact hend.2
  · exact Relation.ReflTransGen.mono
      (fun x y (h : p.RefersWithin ids x y) => List.mem_filter.mpr ⟨h.2.2, decide_eq_true h.2.1⟩) a b

/-- The search for the components of some definitions ends: with more fuel it gives the same. The
components hold each definition once and list their members in increasing order. Two definitions are in
one component if each can be reached from the other by references between the given ones, and a
reference from one component to another goes to an earlier one. -/
theorem components_inOrder (hids : ids.Nodup) (hrange : ∀ id ∈ ids, id < p.defns.size) :
    (∀ more, Successors.components (fun id => (p.dependencies id).filter fun d => d ∈ ids)
      (p.defns.size + more) ids = p.components ids) ∧
      (p.components ids).flatten.Perm ids ∧
      (∀ c ∈ p.components ids, c ≠ [] ∧ c.Pairwise (· < ·)) ∧
      (∀ a ∈ ids, ∀ b ∈ ids, (∃ c ∈ p.components ids, a ∈ c ∧ b ∈ c) ↔
        Relation.ReflTransGen (p.RefersWithin ids) a b ∧
          Relation.ReflTransGen (p.RefersWithin ids) b a) ∧
      ∀ {i j : Nat} {c d : List DefnId}, (p.components ids)[i]? = some c →
        (p.components ids)[j]? = some d → i ≠ j → ∀ a ∈ c, ∀ b ∈ d, b ∈ p.dependencies a → j < i := by
  obtain ⟨hnodup, hmem⟩ := p.components_within hrange
  obtain ⟨hof, hpairwise⟩ := Successors.components_pairwise hrange fun _ _ h => mem_of_successor h
  have hmutual {a b : DefnId} (ha : a ∈ ids) (hb : b ∈ ids) :
      Successors.Mutual (fun id => (p.dependencies id).filter fun d => d ∈ ids) a b ↔
        Relation.ReflTransGen (p.RefersWithin ids) a b ∧
          Relation.ReflTransGen (p.RefersWithin ids) b a :=
    and_congr (path_iff_refersWithin ha) (path_iff_refersWithin hb)
  refine ⟨Successors.components_fuel hrange fun _ _ h => mem_of_successor h,
    (List.perm_ext_iff_of_nodup hnodup hids).mpr hmem, fun c hc => ?_, fun a ha b hb => ?_, ?_⟩
  · obtain ⟨v, hv, hsorted, hc⟩ := hof c hc
    exact ⟨List.ne_nil_of_mem ((hc v).mpr ⟨hv, .refl, .refl⟩), hsorted⟩
  · rw [← hmutual ha hb]
    constructor
    · rintro ⟨c, hc, hac, hbc⟩
      obtain ⟨v, -, -, hc⟩ := hof c hc
      exact ((hc a).mp hac).2.symm.trans ((hc b).mp hbc).2
    · intro hab
      obtain ⟨c, hc, hac⟩ := List.mem_flatten.mp ((hmem a).mpr ha)
      obtain ⟨v, -, -, hin⟩ := hof c hc
      exact ⟨c, hc, hac, (hin b).mpr ⟨hb, ((hin a).mp hac).2.trans hab⟩⟩
  · intro i j c d hi hj hij a ha b hb hab
    obtain ⟨hilt, rfl⟩ := List.getElem?_eq_some_iff.mp hi
    obtain ⟨hjlt, rfl⟩ := List.getElem?_eq_some_iff.mp hj
    by_contra hle
    have hbin : b ∈ ids := (hmem b).mp (List.mem_flatten.mpr ⟨_, List.getElem_mem hjlt, hb⟩)
    exact List.pairwise_iff_getElem.mp hpairwise i j hilt hjlt (by omega) a ha b hb
      (List.mem_filter.mpr ⟨hab, decide_eq_true hbin⟩)

/-- A block that calls another one and two that call each other. -/
def pingPong : Program :=
  let calls (name : String) (id : DefnId) : Defn :=
    .new name .unknown (.block (.new [] (some (.done (.call ⟨id, [], none⟩)))))
  { Program.empty with defns := #[calls "main" 1, calls "ping" 2, calls "pong" 1] }

/-- The two that call each other are in one component. -/
theorem components_pingPong : ([0, 1, 2] : List DefnId).Nodup ∧
    (∀ id ∈ ([0, 1, 2] : List DefnId), id < pingPong.defns.size) ∧
    ∃ c ∈ pingPong.components [0, 1, 2], 1 ∈ c ∧ 2 ∈ c := by
  have hnodup : ([0, 1, 2] : List DefnId).Nodup := by decide
  have hrange : ∀ id ∈ ([0, 1, 2] : List DefnId), id < pingPong.defns.size := by decide
  obtain ⟨-, -, -, hsame, -⟩ := components_inOrder hnodup hrange
  have hping : pingPong.RefersWithin [0, 1, 2] 1 2 := ⟨by decide, by decide, by decide +kernel⟩
  have hpong : pingPong.RefersWithin [0, 1, 2] 2 1 := ⟨by decide, by decide, by decide +kernel⟩
  exact ⟨hnodup, hrange, (hsame 1 (by decide) 2 (by decide)).mpr ⟨.single hping, .single hpong⟩⟩

end Program

end Mil
