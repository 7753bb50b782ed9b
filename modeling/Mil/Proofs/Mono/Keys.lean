import Mil.Proofs.Mono.Monomorphic

/-!
What copies are remembered by. Every operand of a finished copy that refers to another copy has a key
that was remembered: the name that was referred to, and the text of the type recorded at the operand.
This is kept while bodies are copied, since keys are never forgotten and a recorded type never changes.
And a copy is made for one key only.
-/

namespace Mil.Mono

/-! ### What a step leaves as it is -/

/-- Copies that were made for an instance are definitions, and each was made for one key. -/
structure State.Single (s : State) : Prop where
  lt : ∀ {k : CloneKey} {j : DefnId}, (k, j) ∈ s.clones → k.inst ≠ none → j < s.program.defns.size
  eq : ∀ {k k' : CloneKey} {j : DefnId}, (k, j) ∈ s.clones → (k', j) ∈ s.clones → k.inst ≠ none →
    k'.inst ≠ none → k = k'

/-- Recorded types, definitions, keys and requests are added, and a definition that is added has no
operands yet. -/
structure Extends (s s' : State) : Prop where
  store : s'.program.store = s.program.store
  sites : ∀ {x : SiteId} {o : Option Ty}, s.program.sites[x]? = some o →
    s'.program.sites[x]? = some o
  bodies : ∀ {j : DefnId} {d : Defn}, s'.program.defns[j]? = some d →
    s.program.defns[j]? = some d ∨ d.body.atoms = []
  clones : ∀ x ∈ s.clones, x ∈ s'.clones
  queue : ∀ q ∈ s.queue, q ∈ s'.queue
  asked : ∀ {j : DefnId}, (.own j, j) ∈ s'.clones → (.own j, j) ∈ s.clones ∨ Waits s'.queue j
  single : s.Single → s'.Single

section Extends

variable {s s' : State}

theorem Extends.refl (s : State) : Extends s s :=
  ⟨rfl, fun h => h, .inl, fun _ h => h, fun _ h => h, .inl, id⟩

theorem Waits.mono {requests requests' : List Pending} (h : ∀ q ∈ requests, q ∈ requests')
    {j : DefnId} (hj : Waits requests j) : Waits requests' j := by
  obtain ⟨q, hq, rfl⟩ := hj
  exact ⟨q, h q hq, rfl⟩

theorem Extends.trans {s₁ s₂ s₃ : State} (h : Extends s₁ s₂) (h' : Extends s₂ s₃) :
    Extends s₁ s₃ where
  store := h'.store.trans h.store
  sites hx := h'.sites (h.sites hx)
  bodies hd := (h'.bodies hd).elim h.bodies .inr
  clones x hx := h'.clones x (h.clones x hx)
  queue q hq := h'.queue q (h.queue q hq)
  asked hj := (h'.asked hj).elim (fun hj => (h.asked hj).imp_right (.mono h'.queue)) .inr
  single hs := h'.single (h.single hs)

/-- Definitions, keys and requests stay, and recorded types are added. -/
theorem Extends.of_same (hstore : s'.program.store = s.program.store)
    (hsites : ∀ {x : SiteId} {o : Option Ty}, s.program.sites[x]? = some o →
      s'.program.sites[x]? = some o)
    (hdefns : s'.program.defns = s.program.defns) (hclones : s'.clones = s.clones)
    (hqueue : s'.queue = s.queue) : Extends s s' where
  store := hstore
  sites := hsites
  bodies hd := .inl (hdefns ▸ hd)
  clones _ hx := hclones ▸ hx
  queue _ hq := hqueue ▸ hq
  asked hj := .inl (hclones ▸ hj)
  single h := by
    refine ⟨fun hk => ?_, fun hk hk' => ?_⟩
    · rw [hclones] at hk
      rw [hdefns]
      exact h.lt hk
    · rw [hclones] at hk hk'
      exact h.eq hk hk'

/-- A definition without operands is added as a copy for an instance. -/
theorem Extends.clone {k : CloneKey} {d : Defn} {added : List Pending} (hinst : k.inst ≠ none)
    (hatoms : d.body.atoms = []) (hstore : s'.program.store = s.program.store)
    (hsites : s'.program.sites = s.program.sites)
    (hdefns : s'.program.defns = s.program.defns.push d)
    (hclones : s'.clones = (k, s.program.defns.size) :: s.clones)
    (hqueue : s'.queue = s.queue ++ added) : Extends s s' where
  store := hstore
  sites hx := hsites ▸ hx
  bodies {j e} he := by
    rw [hdefns, Array.getElem?_push] at he
    split at he
    · cases he
      exact .inr hatoms
    · exact .inl he
  clones x hx := hclones ▸ .tail _ hx
  queue q hq := hqueue ▸ List.mem_append_left _ hq
  asked {j} hj := by
    rw [hclones] at hj
    rcases List.mem_cons.mp hj with heq | hj
    · cases heq
      exact absurd rfl hinst
    · exact .inl hj
  single h := by
    have hnew {k' : CloneKey} (hk' : (k', s.program.defns.size) ∈ s.clones)
        (hinst' : k'.inst ≠ none) : False := Nat.lt_irrefl _ (h.lt hk' hinst')
    refine ⟨fun {k' j} hk' hinst' => ?_, fun {k₁ k₂ j} h₁ h₂ hinst₁ hinst₂ => ?_⟩
    · rw [hdefns, Array.size_push]
      rw [hclones] at hk'
      rcases List.mem_cons.mp hk' with heq | hk'
      · cases heq
        exact Nat.lt_succ_self _
      · exact Nat.lt_succ_of_lt (h.lt hk' hinst')
    · rw [hclones] at h₁ h₂
      rcases List.mem_cons.mp h₁ with heq | h₁ <;> rcases List.mem_cons.mp h₂ with heq' | h₂
      · cases heq
        cases heq'
        rfl
      · cases heq
        exact (hnew h₂ hinst₂).elim
      · cases heq'
        exact (hnew h₁ hinst₁).elim
      · exact h.eq h₁ h₂ hinst₁ hinst₂

end Extends

/-- From any state that extends `s₀`, the step extends the state, and what it gives is as it should
be. -/
def Adds {α : Type} (s₀ : State) (x : MonoM α) (Q : State → α → Prop) : Prop :=
  ∀ s a s', Extends s₀ s → Yields x s a s' → Extends s s' ∧ Q s' a

section Adds

variable {α β : Type} {s₀ : State} {x : MonoM α} {Q : State → α → Prop} {R : State → β → Prop}

theorem Adds.bind {f : α → MonoM β} (hx : Adds s₀ x Q)
    (hf : ∀ a s₁, Extends s₀ s₁ → Q s₁ a → Adds s₁ (f a) R) : Adds s₀ (x >>= f) R := by
  intro s b s' hs hy
  obtain ⟨a, s₁, hxa, hfb⟩ := yields_bind.mp hy
  obtain ⟨hs₁, hQ⟩ := hx s a s₁ hs hxa
  obtain ⟨hs', hR⟩ := hf a s₁ (hs.trans hs₁) hQ s₁ b s' (.refl _) hfb
  exact ⟨hs₁.trans hs', hR⟩

theorem Adds.pure {a : α} (h : ∀ s, Extends s₀ s → Q s a) : Adds s₀ (Pure.pure a) Q := by
  intro s b s' hs hy
  obtain ⟨rfl, rfl⟩ := yields_pure.mp hy
  exact ⟨.refl _, h s hs⟩

theorem Adds.broken {d : Defect} : Adds s₀ (broken d) Q :=
  fun _ _ _ _ hy => absurd hy not_yields_broken

theorem Adds.broken_bind {d : Defect} {f : α → MonoM β} : Adds s₀ (Mono.broken d >>= f) R :=
  (Adds.broken (Q := fun _ _ => False)).bind fun _ _ _ hfalse => hfalse.elim

theorem Adds.imp (hx : Adds s₀ x Q) {Q' : State → α → Prop} (h : ∀ s a, Q s a → Q' s a) :
    Adds s₀ x Q' := by
  intro s a s' hs hy
  obtain ⟨hs', hQ⟩ := hx s a s' hs hy
  exact ⟨hs', h s' a hQ⟩

theorem Adds.mono {s₁ : State} (hx : Adds s₀ x Q) (hs : Extends s₀ s₁) : Adds s₁ x Q :=
  fun s a s' hs' hy => hx s a s' (hs.trans hs') hy

/-- A step that only looks at the state. -/
theorem Adds.of_same (h : ∀ {s a s'}, Yields x s a s' → s' = s ∧ Q s a) : Adds s₀ x Q := by
  intro s a s' _ hy
  obtain ⟨rfl, hQ⟩ := h hy
  exact ⟨.refl _, hQ⟩

theorem Adds.mapM {f : α → MonoM β} {C : State → β → Prop} {as : List α}
    (hC : ∀ {s s' b}, Extends s s' → C s b → C s' b) (hf : ∀ a ∈ as, Adds s₀ (f a) C) :
    Adds s₀ (as.mapM f) fun s bs => ∀ b ∈ bs, C s b := by
  induction as generalizing s₀ with
  | nil =>
      rw [List.mapM_nil]
      exact .pure fun _ _ _ hb => nomatch hb
  | cons a as ih =>
      rw [List.mapM_cons]
      refine (hf a (.head _)).bind fun b s₁ hs hb => ?_
      refine (ih fun a' ha' => (hf a' (.tail _ ha')).mono hs).bind fun bs s₂ hs' hbs => ?_
      exact .pure fun s hs'' => List.forall_mem_cons.mpr
        ⟨hC (hs'.trans hs'') hb, fun b hb => hC hs'' (hbs b hb)⟩

theorem Adds.optionMapM {f : α → MonoM β} {C : State → β → Prop} {o : Option α}
    (hC : ∀ {s s' b}, Extends s s' → C s b → C s' b) (hf : ∀ a, o = some a → Adds s₀ (f a) C) :
    Adds s₀ (o.mapM f) fun s r => ∀ b, r = some b → C s b := by
  cases o with
  | none => exact .pure fun _ _ _ hb => nomatch hb
  | some a =>
      have hmap : (some a).mapM f = f a >>= fun b => Pure.pure (some b) := rfl
      rw [hmap]
      refine (hf a rfl).bind fun b s₁ _ hb => .pure fun s hs b' hb' => ?_
      cases hb'
      exact hC hs hb

theorem adds_get : Adds s₀ get fun _ _ => True :=
  .of_same fun hy => ⟨(yields_get.mp hy).2, trivial⟩

theorem adds_store : Adds s₀ store fun s st => st = s.program.store :=
  .of_same fun hy => ⟨(yields_store hy).2, (yields_store hy).1⟩

theorem adds_definition (id : DefnId) : Adds s₀ (definition id) fun _ _ => True :=
  .of_same fun hy => ⟨(yields_definition hy).2, trivial⟩

theorem adds_known? (k : CloneKey) : Adds s₀ (known? k) fun s r => ∀ j, r = some j →
    (k, j) ∈ s.clones :=
  .of_same fun hy => ⟨(yields_known? hy).2, fun _ hj =>
    mem_clones_of_lookup ((yields_known? hy).1.symm.trans hj)⟩

theorem adds_specializing (vars : List Nat) (slots : Slots) :
    Adds s₀ (specializing vars slots) fun _ _ => True :=
  .of_same fun hy => ⟨yields_specializing hy, trivial⟩

end Adds

/-! ### Requests -/

section Requests

variable {s₀ : State}

theorem adds_mono (id : DefnId) : Adds s₀ (mono id) fun _ j => j = id := by
  intro s j s' _ hy
  rw [mono, yields_bind] at hy
  obtain ⟨r, s₁, hknown, hy⟩ := hy
  obtain ⟨-, rfl⟩ := yields_known? hknown
  split at hy
  · rw [yields_bind] at hy
    obtain ⟨_, s₂, hrem, hy⟩ := hy
    obtain rfl := yields_modify.mp hrem
    rw [yields_bind] at hy
    obtain ⟨_, s₃, henq, hy⟩ := hy
    obtain rfl := yields_modify.mp henq
    obtain ⟨rfl, rfl⟩ := yields_pure.mp hy
    refine ⟨⟨rfl, fun hx => hx, .inl, fun _ hx => .tail _ hx,
      fun _ hq => List.mem_append_left _ hq, fun {i} hi => ?_, fun h => ⟨?_, ?_⟩⟩, rfl⟩
    · rcases List.mem_cons.mp hi with heq | hi
      · cases heq
        exact .inr ⟨⟨id, id, []⟩, by simp, rfl⟩
      · exact .inl hi
    · intro k i hk hinst
      rcases List.mem_cons.mp hk with heq | hk
      · cases heq
        exact absurd rfl hinst
      · exact h.lt hk hinst
    · intro k k' i hk hk' hinst hinst'
      rcases List.mem_cons.mp hk with heq | hk
      · cases heq
        exact absurd rfl hinst
      · rcases List.mem_cons.mp hk' with heq | hk'
        · cases heq
          exact absurd rfl hinst'
        · exact h.eq hk hk' hinst hinst'
  · obtain ⟨rfl, rfl⟩ := yields_pure.mp hy
    exact ⟨.refl _, rfl⟩

/-- A request for a new copy remembers it by its key. -/
theorem adds_request {id index : Nat} {inst : String} {make : Nat → Defn}
    {finish : DefnId → MonoM DefnId} (hatoms : ∀ n, (make n).body.atoms = [])
    (hfinish : ∀ {c s j s'}, Yields (finish c) s j s' →
      j = c ∧ ∃ added, s' = { s with queue := s.queue ++ added }) :
    Adds s₀ (do
      let n ← nextNumber id
      let c ← add (make n)
      remember ⟨id, index, some inst⟩ c
      finish c) fun s j => (⟨id, index, some inst⟩, j) ∈ s.clones := by
  intro s j s' _ hy
  rw [yields_bind] at hy
  obtain ⟨n, s₁, hnumber, hy⟩ := hy
  obtain ⟨counts, rfl⟩ := yields_nextNumber hnumber
  rw [yields_bind] at hy
  obtain ⟨c, s₂, hadd, hy⟩ := hy
  obtain ⟨rfl, rfl⟩ := yields_add hadd
  rw [yields_bind] at hy
  obtain ⟨_, s₃, hrem, hy⟩ := hy
  obtain rfl := yields_modify.mp hrem
  obtain ⟨rfl, added, rfl⟩ := hfinish hy
  refine ⟨Extends.clone (k := ⟨id, index, some inst⟩) ?_ (hatoms n) rfl rfl rfl rfl rfl, .head _⟩
  exact fun hnone => nomatch hnone

theorem adds_block (id : DefnId) (inst : BlockType) : Adds s₀ (block id inst) fun _ _ => True := by
  unfold block
  refine (adds_definition id).bind fun d s₁ _ _ => ?_
  split
  · split
    · exact (adds_mono id).imp fun _ _ _ => trivial
    · refine adds_store.bind fun st s₂ _ _ => (adds_known? _).bind fun r s₃ _ _ => ?_
      split
      · exact .pure fun _ _ => trivial
      · dsimp only
        split
        · exact .broken_bind
        · refine (adds_request (fun _ => rfl) fun hy => ?_).imp fun _ _ _ => trivial
          obtain ⟨rfl, sub, rfl⟩ := yields_specializing_enqueue hy
          exact ⟨rfl, _, rfl⟩
  · exact .broken

theorem adds_closure (id : DefnId) (inst : AllocType) :
    Adds s₀ (closure id inst) fun _ _ => True := by
  unfold closure
  refine (adds_definition id).bind fun d s₁ _ _ => ?_
  split
  · split
    · exact (adds_mono id).imp fun _ _ _ => trivial
    · refine adds_store.bind fun st s₂ _ _ => (adds_known? _).bind fun r s₃ _ _ => ?_
      split
      · exact .pure fun _ _ => trivial
      · dsimp only
        split
        · exact .broken_bind
        · refine (adds_request (fun _ => rfl) fun hy => ?_).imp fun _ _ _ => trivial
          obtain ⟨rfl, sub, rfl⟩ := yields_specializing_enqueue hy
          exact ⟨rfl, _, rfl⟩
  · exact .broken

/-- The definition is the one that was asked for, or was remembered as a copy of one for the name and
the instance. -/
def State.Keyed (s : State) (id index : Nat) (t : Ty) (j : DefnId) : Prop :=
  j = id ∨ ∃ i, (⟨i, index, some (s.program.store.text t)⟩, j) ∈ s.clones

theorem State.Keyed.mono {s s' : State} {id index : Nat} {t : Ty} {j : DefnId}
    (h : s.Keyed id index t j) (hs : Extends s s') : s'.Keyed id index t j := by
  refine h.imp_right fun ⟨i, hi⟩ => ⟨i, ?_⟩
  rw [hs.store]
  exact hs.clones _ hi

theorem adds_topLevel (id : DefnId) (d : Defn) (t : TopLevel) (index : Nat) (inst : Option Ty) :
    Adds s₀ (topLevel id d t index inst) fun s j => s.Keyed id index (inst.getD .unit) j := by
  unfold topLevel
  split
  · exact (adds_mono id).imp fun _ _ hj => .inl hj
  · refine adds_store.bind fun st s₁ _ hst => (adds_known? _).bind fun r s₂ hs₂ hr => ?_
    rw [← hs₂.store] at hst
    split
    · exact .pure fun s hs => .mono (.inr ⟨id, hst ▸ hr _ rfl⟩) hs
    · split
      · exact .broken
      · dsimp only
        split
        · exact .broken_bind
        · refine (adds_specializing _ _).bind fun sub s₃ hs₃ _ => ?_
          rw [← hs₃.store] at hst
          intro s j s' hs hy
          obtain ⟨hs', hj⟩ := adds_request (fun _ => rfl)
            (fun hy => ⟨(yields_enqueue hy).1, _, (yields_enqueue hy).2⟩) s j s' hs hy
          rw [← hs.store, ← hs'.store] at hst
          exact ⟨hs', .inr ⟨id, hst ▸ hj⟩⟩

theorem adds_external (id : DefnId) (d : Defn) (e : Mil.External) (inst : Option Ty) :
    Adds s₀ (external id d e inst) fun s j => s.Keyed id 0 (inst.getD .unit) j := by
  unfold external
  split
  · exact .pure fun _ _ => .inl rfl
  · refine adds_store.bind fun st s₁ _ hst => (adds_known? _).bind fun r s₂ hs₂ hr => ?_
    rw [← hs₂.store] at hst
    split
    · exact .pure fun s hs => .mono (.inr ⟨id, hst ▸ hr _ rfl⟩) hs
    · dsimp only
      split
      · exact .broken_bind
      · intro s j s' hs hy
        obtain ⟨hs', hj⟩ := adds_request (fun _ => rfl) (fun hy => by
          obtain ⟨rfl, rfl⟩ := yields_pure.mp hy
          exact ⟨rfl, [], by simp⟩) s j s' hs hy
        rw [← hs.store, ← hs'.store] at hst
        exact ⟨hs', .inr ⟨id, hst ▸ hj⟩⟩

theorem adds_topRef (id index : Nat) (inst : Option Ty) :
    Adds s₀ (topRef id index inst) fun s r => s.Keyed id r.2 (inst.getD .unit) r.1 := by
  unfold topRef
  refine (adds_definition id).bind fun d s₁ _ _ => ?_
  split
  · exact (adds_topLevel id d _ index inst).bind fun j s₂ _ hj => .pure fun s hs => hj.mono hs
  · exact (adds_external id d _ inst).bind fun j s₂ _ hj => .pure fun s hs => hj.mono hs
  · exact .broken

theorem adds_prim (q : Prim) (inst : BlockType) : Adds s₀ (prim q inst) fun _ _ => True := by
  unfold prim
  split
  · exact .pure fun _ _ => trivial
  · intro s q' s' _ hy
    rw [yields_bind] at hy
    obtain ⟨st, s₁, hget, hy⟩ := hy
    obtain ⟨rfl, rfl⟩ := yields_get.mp hget
    dsimp only at hy
    split at hy
    · obtain ⟨-, rfl⟩ := yields_pure.mp hy
      exact ⟨.refl _, trivial⟩
    · rw [yields_bind] at hy
      obtain ⟨_, s₂, hset, hy⟩ := hy
      obtain rfl := yields_set.mp hset
      obtain ⟨-, rfl⟩ := yields_pure.mp hy
      exact ⟨.of_same rfl (fun hx => hx) rfl rfl rfl, trivial⟩

end Requests

/-! ### Bodies -/

/-- The reference leads to a definition of the program at the start, the first `n` ones, or to a copy
that was remembered for the name and the text of the type recorded at the reference. -/
def State.Leads (n : Nat) (s : State) : Atom → Prop
  | .top j index site => ∃ o, s.program.sites[site]? = some o ∧
      (j < n ∨ ∃ i, (⟨i, index, some (s.program.store.text (o.getD .unit))⟩, j) ∈ s.clones)
  | _ => True

theorem State.Leads.mono {n : Nat} {s s' : State} {a : Atom} (h : s.Leads n a) (hs : Extends s s') :
    s'.Leads n a := by
  cases a with
  | temp t => trivial
  | lit l => trivial
  | top j index site =>
      obtain ⟨o, ho, hj⟩ := h
      refine ⟨o, hs.sites ho, hj.imp_right fun ⟨i, hi⟩ => ⟨i, ?_⟩⟩
      rw [hs.store]
      exact hs.clones _ hi

section Bodies

variable {s₀ : State} {n : Nat} {sub : TySubst} {env : Renames}

theorem adds_typeAt (t : Ty) : Adds s₀ (typeAt sub t) fun _ _ => True :=
  adds_store.bind fun _ _ _ _ => .pure fun _ _ => trivial

theorem adds_blockTypeAt (b : Option BlockType) :
    Adds s₀ (blockTypeAt sub b) fun _ _ => True := by
  unfold blockTypeAt
  split
  · exact .broken
  · exact (adds_typeAt _).bind fun _ _ _ _ => (adds_typeAt _).bind fun _ _ _ _ =>
      .pure fun _ _ => trivial

theorem adds_allocTypeAt (a : Option AllocType) :
    Adds s₀ (allocTypeAt sub a) fun _ _ => True := by
  unfold allocTypeAt
  split
  · exact .broken
  · refine (Adds.mapM (C := fun _ _ => True) (fun _ _ => trivial)
      fun t _ => adds_typeAt t).bind fun _ _ _ _ => ?_
    exact (adds_typeAt _).bind fun _ _ _ _ => .pure fun _ _ => trivial

theorem adds_types (o : Option Ty) : Adds s₀ (o.mapM (typeAt sub)) fun _ _ => True :=
  (Adds.optionMapM (C := fun _ _ => True) (fun _ _ => trivial) fun t _ => adds_typeAt t).imp
    fun _ _ _ => trivial

theorem adds_temps (vars : List Temp) : Adds s₀ (temps sub env vars) fun _ _ => True := by
  unfold temps
  refine (Adds.mapM (C := fun _ _ => True) (fun _ _ => trivial) fun v _ =>
    adds_get.bind fun _ _ _ _ => adds_types _).bind fun types s₁ _ _ => ?_
  intro s r s' _ hy
  rw [yields_bind] at hy
  obtain ⟨q, s₂, hget, hy⟩ := hy
  obtain ⟨rfl, rfl⟩ := yields_get.mp hget
  dsimp only [Program.freshTemps] at hy
  rw [yields_bind] at hy
  obtain ⟨_, s₃, hset, hy⟩ := hy
  obtain rfl := yields_set.mp hset
  obtain ⟨-, rfl⟩ := yields_pure.mp hy
  exact ⟨.of_same rfl (fun hx => hx) rfl rfl rfl, trivial⟩

theorem adds_atom {a : Atom} (ha : ∀ r, a.defn? = some r → r < n) :
    Adds s₀ (atom sub env a) (State.Leads n) := by
  unfold atom
  split
  · split
    · exact .pure fun _ _ => trivial
    · exact .broken
  · exact .pure fun _ _ => trivial
  · rename_i id index site
    refine adds_get.bind fun q s₁ _ _ => (adds_types _).bind fun inst s₂ _ _ => ?_
    refine (adds_topRef id index inst).bind fun r s₃ _ hr => ?_
    obtain ⟨j, index'⟩ := r
    intro s a' s' hs hy
    rw [yields_bind] at hy
    obtain ⟨st, s₄, hget, hy⟩ := hy
    obtain ⟨rfl, rfl⟩ := yields_get.mp hget
    dsimp only [Program.freshSite] at hy
    rw [yields_bind] at hy
    obtain ⟨_, s₅, hset, hy⟩ := hy
    obtain rfl := yields_set.mp hset
    obtain ⟨rfl, rfl⟩ := yields_pure.mp hy
    refine ⟨.of_same rfl (fun hx => getElem?_push_of_some hx inst) rfl rfl rfl, inst,
      Array.getElem?_push_size, ?_⟩
    rcases hr.mono hs with rfl | hj
    · exact .inl (ha _ rfl)
    · exact .inr hj

theorem adds_atoms {as : List Atom} (has : ∀ r ∈ as.filterMap Atom.defn?, r < n) :
    Adds s₀ (as.mapM (atom sub env)) fun s as' => ∀ a ∈ as', s.Leads n a :=
  .mapM (fun hs ha => ha.mono hs) fun a ha =>
    adds_atom fun r hr => has r (List.mem_filterMap.mpr ⟨a, ha, hr⟩)

theorem adds_call {c : BlockCall} (hc : ∀ r ∈ (Tail.call c).refs, r < n) :
    Adds s₀ (call sub env c) fun s c' => ∀ a ∈ c'.args, s.Leads n a := by
  unfold call
  refine (adds_blockTypeAt _).bind fun inst s₁ _ _ => (adds_block _ _).bind fun j s₂ _ _ => ?_
  refine (adds_atoms fun r hr => hc r (List.mem_append_left _ hr)).bind fun args s₃ _ hargs => ?_
  exact .pure fun s hs a ha => (hargs a ha).mono hs

theorem adds_tail {t : Tail} (ht : ∀ r ∈ t.refs, r < n) :
    Adds s₀ (tail sub env t) fun s t' => ∀ a ∈ t'.atoms, s.Leads n a := by
  have hatoms (r : DefnId) (hr : r ∈ t.atoms.filterMap Atom.defn?) : r < n :=
    ht r (List.mem_append_left _ hr)
  cases t with
  | ret args =>
      exact (adds_atoms hatoms).bind fun args' s₁ _ hargs =>
        .pure fun s hs a ha => (hargs a ha).mono hs
  | call c =>
      exact (adds_call ht).bind fun c' s₁ _ hargs => .pure fun s hs a ha => (hargs a ha).mono hs
  | prim q args inst =>
      refine (adds_blockTypeAt _).bind fun inst' s₁ _ _ => (adds_prim _ _).bind fun q' s₂ _ _ => ?_
      exact (adds_atoms hatoms).bind fun args' s₃ _ hargs =>
        .pure fun s hs a ha => (hargs a ha).mono hs
  | alloc k args inst =>
      refine (adds_allocTypeAt _).bind fun inst' s₁ _ _ => (adds_closure _ _).bind fun l s₂ _ _ => ?_
      exact (adds_atoms hatoms).bind fun args' s₃ _ hargs =>
        .pure fun s hs a ha => (hargs a ha).mono hs
  | data k args inst =>
      refine (adds_atoms hatoms).bind fun args' s₁ _ hargs => (adds_allocTypeAt _).bind
        fun inst' s₂ hs₂ _ => ?_
      exact .pure fun s hs a ha => (hargs a ha).mono (hs₂.trans hs)
  | enter fn args =>
      refine (adds_atom fun r hr => hatoms r (List.mem_filterMap.mpr ⟨fn, .head _, hr⟩)).bind
        fun fn' s₁ _ hfn => ?_
      refine (adds_atoms fun r hr => hatoms r ?_).bind fun args' s₂ hs₂ hargs => ?_
      · obtain ⟨a, ha, har⟩ := List.mem_filterMap.mp hr
        exact List.mem_filterMap.mpr ⟨a, .tail _ ha, har⟩
      · exact .pure fun s hs => List.forall_mem_cons.mpr
          ⟨hfn.mono (hs₂.trans hs), fun a ha => (hargs a ha).mono hs⟩
  | sel k field arg inst =>
      refine (adds_atom fun r hr => hatoms r (List.mem_filterMap.mpr ⟨arg, .head _, hr⟩)).bind
        fun arg' s₁ _ harg => (adds_allocTypeAt _).bind fun inst' s₂ hs₂ _ => ?_
      exact .pure fun s hs => List.forall_mem_cons.mpr ⟨harg.mono (hs₂.trans hs), nofun⟩

theorem adds_code {c : Code} (hc : ∀ r ∈ c.refs, r < n) :
    Adds s₀ (code sub env c) fun s c' => ∀ a ∈ c'.atoms, s.Leads n a := by
  induction c generalizing env s₀ with
  | bind vars t next ih =>
      rw [code]
      refine (adds_tail fun r hr => hc r (List.mem_append_left _ hr)).bind fun t' s₁ _ ht => ?_
      refine (adds_temps vars).bind fun r s₂ hs₂ _ => ?_
      refine (ih fun r hr => hc r (List.mem_append_right _ hr)).bind fun next' s₃ hs₃ hnext => ?_
      refine .pure fun s hs a ha => ?_
      rcases List.mem_append.mp ha with ha | ha
      · exact (ht a ha).mono ((hs₂.trans hs₃).trans hs)
      · exact (hnext a ha).mono hs
  | done t =>
      rw [code]
      exact (adds_tail hc).bind fun t' s₁ _ ht => .pure fun s hs a ha => (ht a ha).mono hs
  | branch cond t f =>
      rw [code]
      refine (adds_atom fun r hr => hc r ?_).bind fun cond' s₁ _ hcond => ?_
      · exact List.mem_append_left _ (List.mem_append_left _ (Option.mem_toList.mpr hr))
      refine (adds_call fun r hr => hc r ?_).bind fun t' s₂ hs₂ ht => ?_
      · exact List.mem_append_left _ (List.mem_append_right _ hr)
      refine (adds_call fun r hr => hc r (List.mem_append_right _ hr)).bind fun f' s₃ hs₃ hf => ?_
      refine .pure fun s hs a ha => ?_
      rcases List.mem_append.mp ha with ha | ha
      · rcases List.mem_cons.mp ha with rfl | ha
        · exact hcond.mono ((hs₂.trans hs₃).trans hs)
        · exact (ht a ha).mono (hs₃.trans hs)
      · exact (hf a ha).mono hs
  | case scrut alts default =>
      rw [code]
      have hcalls {c : BlockCall} (hmem : c ∈ (Code.case scrut alts default).calls) (r : DefnId)
          (hr : r ∈ (Tail.call c).refs) : r < n :=
        hc r (List.mem_append_right _ (List.mem_flatMap.mpr ⟨c, hmem, hr⟩))
      have halts : Adds s₀ (alts.mapM fun a => return (a.1, ← call sub env a.2))
          fun s alts' => ∀ alt ∈ alts', ∀ a ∈ alt.2.args, s.Leads n a := by
        refine .mapM (fun hs h a ha => (h a ha).mono hs) fun alt halt => ?_
        refine (adds_call (hcalls (List.mem_append_left _ (List.mem_map_of_mem halt)))).bind
          fun c' s₁ _ hc' => ?_
        exact .pure fun s hs a ha => (hc' a ha).mono hs
      refine halts.bind fun alts' s₁ _ halts => ?_
      refine (adds_atom fun r hr => hc r ?_).bind fun scrut' s₂ hs₂ hscrut => ?_
      · exact List.mem_append_left _ (Option.mem_toList.mpr hr)
      refine (Adds.optionMapM (C := fun s c' => ∀ a ∈ c'.args, s.Leads n a)
        (fun hs h a ha => (h a ha).mono hs) fun c hmem => adds_call (hcalls
          (List.mem_append_right _ (Option.mem_toList.mpr hmem)))).bind
            fun default' s₃ hs₃ hdefault => ?_
      refine .pure fun s hs a ha => ?_
      rcases List.mem_cons.mp ha with rfl | ha
      · exact hscrut.mono (hs₃.trans hs)
      obtain ⟨c', hc', ha⟩ := List.mem_flatMap.mp ha
      rcases List.mem_append.mp hc' with hc' | hc'
      · obtain ⟨alt, halt, rfl⟩ := List.mem_map.mp hc'
        exact (halts alt halt a ha).mono ((hs₂.trans hs₃).trans hs)
      · exact (hdefault c' (Option.mem_toList.mp hc') a ha).mono hs

theorem adds_presentTail {t : Option Tail} (ht : ∀ r ∈ (t.map Tail.refs).getD [], r < n) :
    Adds s₀ (presentTail sub env t) fun s t' => ∀ a ∈ t'.atoms, s.Leads n a := by
  unfold presentTail
  split
  · exact adds_tail ht
  · exact .broken

theorem adds_ownType {α : Type} {q : Pending} {present : Option α} {own : MonoM α}
    (hown : Adds s₀ own fun _ _ => True) : Adds s₀ (ownType q present own) fun _ _ => True := by
  unfold ownType
  split
  · have hmap : some <$> own = own >>= fun a => pure (some a) := rfl
    rw [hmap]
    exact hown.bind fun _ _ _ _ => .pure fun _ _ => trivial
  · exact .pure fun _ _ => trivial

/-- The names of a top-level definition are typed without any request. -/
theorem adds_names {f : TopName → Option Ty → TopName} (lhs : List TopName) :
    Adds s₀ (lhs.mapM fun l => do
      let own ← l.defining.mapM (typeAt sub)
      return f l own) fun _ _ => True := by
  refine (Adds.mapM (C := fun _ _ => True) (fun _ _ => trivial) fun l _ => ?_).imp
    fun _ _ _ => trivial
  exact (adds_types _).bind fun _ _ _ _ => .pure fun _ _ => trivial

/-- Filling in a copy puts a body in its place whose operands lead where they should. -/
theorem fill_leads {s s' : State} {q : Pending}
    (hrefs : ∀ d, s.program.defns[q.source]? = some d → ∀ r ∈ d.body.refs, r < n)
    (hy : Yields (fill q) s () s') : ∃ s₁ body, Extends s s₁ ∧
      s' = { s₁ with program := s₁.program.setBody q.clone body } ∧
      ∀ a ∈ body.atoms, s₁.Leads n a := by
  rw [fill, yields_bind] at hy
  obtain ⟨d, s₁, hdefn, hy⟩ := hy
  obtain ⟨hd, rfl⟩ := yields_definition hdefn
  rw [yields_bind] at hy
  obtain ⟨d', s₂, hdefn', hy⟩ := hy
  obtain ⟨-, rfl⟩ := yields_definition hdefn'
  have hsource := hrefs d hd
  split at hy
  · rename_i o c hbody hbody'
    rw [hbody] at hsource
    rw [yields_bind] at hy
    obtain ⟨⟨params, env⟩, s₃, htemps, hy⟩ := hy
    obtain ⟨hs₃, -⟩ := adds_temps _ _ _ _ (.refl _) htemps
    dsimp only at hy
    split at hy
    · exact absurd hy not_yields_broken
    · rename_i body hsome
      rw [DefnBody.refs, hsome] at hsource
      rw [yields_bind] at hy
      obtain ⟨body', s₄, hcode, hy⟩ := hy
      obtain ⟨hs₄, hleads⟩ := adds_code hsource _ _ _ (.refl _) hcode
      rw [yields_bind] at hy
      obtain ⟨declared, s₅, hown, hy⟩ := hy
      obtain ⟨hs₅, -⟩ := adds_ownType (adds_blockTypeAt _) _ _ _ (.refl _) hown
      obtain rfl := yields_modify.mp hy
      exact ⟨s₅, _, hs₃.trans (hs₄.trans hs₅), rfl, fun a ha => (hleads a ha).mono hs₅⟩
  · rename_i o c hbody hbody'
    rw [hbody] at hsource
    rw [yields_bind] at hy
    obtain ⟨⟨params, env⟩, s₃, htemps, hy⟩ := hy
    obtain ⟨hs₃, -⟩ := adds_temps _ _ _ _ (.refl _) htemps
    dsimp only at hy
    rw [yields_bind] at hy
    obtain ⟨⟨args, env'⟩, s₄, htemps', hy⟩ := hy
    obtain ⟨hs₄, -⟩ := adds_temps _ _ _ _ (.refl _) htemps'
    dsimp only at hy
    rw [yields_bind] at hy
    obtain ⟨t', s₅, htail, hy⟩ := hy
    obtain ⟨hs₅, hleads⟩ := adds_presentTail hsource _ _ _ (.refl _) htail
    rw [yields_bind] at hy
    obtain ⟨declared, s₆, hown, hy⟩ := hy
    obtain ⟨hs₆, -⟩ := adds_ownType (adds_allocTypeAt _) _ _ _ (.refl _) hown
    obtain rfl := yields_modify.mp hy
    exact ⟨s₆, _, hs₃.trans (hs₄.trans (hs₅.trans hs₆)), rfl, fun a ha => (hleads a ha).mono hs₆⟩
  · rename_i o c hbody hbody'
    rw [hbody] at hsource
    rw [yields_bind] at hy
    obtain ⟨t', s₃, htail, hy⟩ := hy
    obtain ⟨hs₃, hleads⟩ := adds_presentTail hsource _ _ _ (.refl _) htail
    rw [yields_bind] at hy
    obtain ⟨lhs, s₄, hlhs, hy⟩ := hy
    obtain ⟨hs₄, -⟩ := adds_names c.lhs _ _ _ (.refl _) hlhs
    obtain rfl := yields_modify.mp hy
    exact ⟨s₄, _, hs₃.trans hs₄, rfl, fun a ha => (hleads a ha).mono hs₄⟩
  · rw [yields_bind] at hy
    obtain ⟨d₃, s₃, -, hy⟩ := hy
    exact absurd hy not_yields_broken

end Bodies

/-! ### Whole programs -/

/-- The operands of every definition lead where they should, unless it is a definition of the start
that was not filled in yet. -/
def State.AllLead (n : Nat) (extra : List Pending) (s : State) : Prop :=
  ∀ {j : DefnId} {d : Defn}, s.program.defns[j]? = some d →
    (j < n ∧ ((.own j, j) ∉ s.clones ∨ Waits (extra ++ s.queue) j)) ∨
      ∀ a ∈ d.body.atoms, s.Leads n a

section Programs

variable {n : Nat} {extra : List Pending} {p : Program} {s s' : State}

theorem allLead_start : (State.start p).AllLead p.defns.size [] :=
  fun hd => .inl ⟨(Array.getElem?_eq_some_iff.mp hd).1, .inl nofun⟩

theorem single_start : (State.start p).Single := ⟨nofun, nofun⟩

theorem State.AllLead.extends (h : s.AllLead n extra) (hs : Extends s s') : s'.AllLead n extra := by
  intro j d hd
  rcases hs.bodies hd with hd | hnil
  · rcases h hd with ⟨hj, hfresh | hwaits⟩ | hleads
    · refine .inl ⟨hj, or_iff_not_imp_left.mpr fun hown => ?_⟩
      rcases hs.asked (not_not.mp hown) with hown | hwaits
      · exact absurd hown hfresh
      · exact hwaits.mono fun q hq => List.mem_append_right _ hq
    · refine .inl ⟨hj, .inr (hwaits.mono fun q hq => ?_)⟩
      rcases List.mem_append.mp hq with hq | hq
      · exact List.mem_append_left _ hq
      · exact List.mem_append_right _ (hs.queue q hq)
    · exact .inr fun a ha => (hleads a ha).mono hs
  · rw [hnil]
    exact .inr nofun

theorem State.AllLead.pop {q : Pending} {queue : List Pending} (h : s.AllLead n [])
    (hqueue : s.queue = q :: queue) : State.AllLead n [q] { s with queue } := by
  intro j d hd
  refine (h hd).imp_left fun ⟨hj, hcond⟩ => ⟨hj, hcond.imp_right fun hwaits => ?_⟩
  rw [List.nil_append, hqueue] at hwaits
  exact hwaits

/-- The copy that is filled in leads where it should. -/
theorem State.AllLead.meet {q : Pending} {body : DefnBody} (h : s.AllLead n [q])
    (hbody : ∀ a ∈ body.atoms, s.Leads n a) :
    State.AllLead n [] { s with program := s.program.setBody q.clone body } := by
  intro j d hd
  have hget := s.program.getElem?_setBody q.clone j body
  rw [show (s.program.setBody q.clone body).defns[j]? = some d from hd] at hget
  split at hget
  · obtain ⟨d₀, -, rfl⟩ := Option.map_eq_some_iff.mp hget.symm
    exact .inr hbody
  · rename_i hne
    refine (h hget.symm).imp_left fun ⟨hj, hcond⟩ => ⟨hj, hcond.imp_right ?_⟩
    rintro ⟨q', hq', heq⟩
    rcases List.mem_cons.mp hq' with rfl | hq'
    · exact absurd heq hne
    · exact ⟨q', hq', heq⟩

theorem State.Single.setBody (h : s.Single) (id : DefnId) (body : DefnBody) :
    State.Single { s with program := s.program.setBody id body } where
  lt hk hinst := by
    show _ < (s.program.defns.modify _ _).size
    rw [Array.size_modify]
    exact h.lt hk hinst
  eq := h.eq

theorem run_leads (hp : Prepared p) {fuel : Nat} (ht : Tracks p [] s)
    (h : s.AllLead p.defns.size []) (hsingle : s.Single) (hy : Yields (run fuel) s () s') :
    s'.AllLead p.defns.size [] ∧ s'.Single := by
  induction fuel generalizing s with
  | zero =>
      rw [run, yields_bind] at hy
      obtain ⟨q, s₁, hget, hy⟩ := hy
      obtain ⟨rfl, rfl⟩ := yields_get.mp hget
      split at hy
      · exact absurd hy not_yields_throw
      · obtain ⟨-, rfl⟩ := yields_pure.mp hy
        exact ⟨h, hsingle⟩
  | succ fuel ih =>
      rw [run, yields_bind] at hy
      obtain ⟨q, s₁, hget, hy⟩ := hy
      obtain ⟨rfl, rfl⟩ := yields_get.mp hget
      split at hy
      · obtain ⟨-, rfl⟩ := yields_pure.mp hy
        exact ⟨h, hsingle⟩
      · rename_i q queue hqueue
        rw [yields_bind] at hy
        obtain ⟨_, s₂, hset, hy⟩ := hy
        obtain rfl := yields_set.mp hset
        rw [yields_bind] at hy
        obtain ⟨_, s₃, hfill, hy⟩ := hy
        have hpop := ht.pop hqueue
        obtain ⟨-, ht₃⟩ := fill_spec hp hpop hfill
        obtain ⟨d, hd, hsource⟩ := hpop.request_source (.head _)
        obtain ⟨s₄, body, hs₄, rfl, hbody⟩ := fill_leads (n := p.defns.size)
          (fun d' hd' => Option.some.inj (hsource.symm.trans hd') ▸ hp.refs hd) hfill
        have hall : State.AllLead p.defns.size [q] s₄ :=
          State.AllLead.extends (h.pop hqueue) hs₄
        have hone : s₄.Single := hs₄.single ⟨hsingle.lt, hsingle.eq⟩
        exact ih ht₃ (hall.meet hbody) (hone.setBody _ _) hy

theorem adds_entries {s₀ : State} (ids : List DefnId) :
    Adds s₀ (ids.forM fun id => do let _ ← entry id) fun _ _ => True := by
  induction ids generalizing s₀ with
  | nil => exact .pure fun _ _ => trivial
  | cons id ids ih =>
      have hcheck : Adds s₀ (checkEntry id) fun _ _ => True :=
        .of_same fun hy => ⟨(checkEntry_spec hy).1, trivial⟩
      have hentry : Adds s₀ (do let _ ← entry id) fun _ _ => True :=
        (hcheck.bind fun _ s₁ _ _ => adds_mono id).bind fun _ _ _ _ => .pure fun _ _ => trivial
      exact hentry.bind fun _ _ _ _ => ih

/-- When specialisation ends, the operands of all copies lead where they should, and every copy for
an instance was made for one key. -/
theorem program_leads (hp : Prepared p) (hy : Yields program (.start p) () s) :
    s.AllLead p.defns.size [] ∧ s.Single := by
  rw [program, yields_bind] at hy
  obtain ⟨q, s₁, hget, hy⟩ := hy
  obtain ⟨rfl, rfl⟩ := yields_get.mp hget
  rw [yields_bind] at hy
  obtain ⟨_, s₂, hcheck, hy⟩ := hy
  obtain ⟨rfl, hentries⟩ := checkEntries_spec hcheck
  rw [yields_bind] at hy
  obtain ⟨_, s₃, hasked, hy⟩ := hy
  obtain ⟨-, ht, -⟩ := entries_spec (tracks_start hp.whole) hentries hasked
  obtain ⟨hs₃, -⟩ := adds_entries _ _ _ _ (.refl _) hasked
  exact run_leads hp ht (allLead_start.extends hs₃) (hs₃.single single_start) hy

end Programs

end Mil.Mono
