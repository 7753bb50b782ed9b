import Mathlib.Data.Finset.Max
import Mil.Proofs.Mono.Flow

/-!
Specialisation ends. If no flow of types that grows lies on a cycle, the copies that can be asked for
have keys from a finite set. Every copy is filled in once, so a run empties the queue after finitely
many steps. Without the condition it need not: a block that calls itself at a larger type asks for
larger and larger copies.
-/

namespace Mil.Mono

open Typing (DefnHas Complete Checker accepted accepted_eq accepted_spec)

/-! ### Keys -/

section Keys

variable {p : Program} {rank : DefnId × Nat → Nat}

/-- The types that a type of a graded definition is read as. -/
def gradedReadings (p : Program) (rank : DefnId × Nat → Nat) (id : DefnId) (t : Ty) : Set Ty :=
  (p.store.resolve t).readings fun v => grade p (rank (id, v) + 1)

theorem finite_gradedReadings (p : Program) (rank : DefnId × Nat → Nat) (id : DefnId) (t : Ty) :
    (gradedReadings p rank id t).Finite :=
  Ty.finite_readings (fun _ => finite_grade p _) _

theorem reading_mem (hreg : p.store.Regular 0) {id : DefnId} {θ : Nat → Ty}
    (hθ : Assigns p.store θ) (hgood : Graded p rank id θ) (t : Ty) :
    t.mapVars θ ∈ gradedReadings p rank id t :=
  ⟨θ, fun v hv => hgood.mem v (hreg.unbound_of_occurs hv), hθ.solves.resolve t⟩

/-- The keys of copies of a definition at graded readings. -/
def copyKeys (p : Program) (rank : DefnId × Nat → Nat) (id : DefnId) (b : DefnBody) :
    Set CloneKey :=
  {k | k.defn = id ∧ ∃ b' θ, Assigns p.store θ ∧ Graded p rank id θ ∧ HeadAt θ b b' ∧
    KeyText p.store k b'}

variable {id : DefnId}

theorem finite_copyKeys_block (hreg : p.store.Regular 0) {b : Block} {type : BlockType}
    (hworking : b.defining = some type) : (copyKeys p rank id (.block b)).Finite := by
  refine (Set.Finite.image2
    (fun dom rng => CloneKey.mk id 0 (some (BlockType.key p.store ⟨[], dom, rng⟩)))
    (finite_gradedReadings p rank id type.dom) (finite_gradedReadings p rank id type.rng)).subset ?_
  rintro ⟨_, index, inst⟩ ⟨rfl, b', θ, hθ, hgood, hhead, hkey⟩
  cases hhead with
  | block hworking' hdeclared =>
      obtain rfl := Option.some.inj (hworking.symm.trans hworking')
      obtain ⟨rfl, rfl⟩ := hkey _ hdeclared
      exact ⟨_, reading_mem hreg hθ hgood type.dom, _, reading_mem hreg hθ hgood type.rng, rfl⟩

theorem finite_copyKeys_closure (hreg : p.store.Regular 0) {k : Closure} {type : AllocType}
    (hworking : k.defining = some type) : (copyKeys p rank id (.closure k)).Finite := by
  have hstored : (Ty.readingsList (fun v => grade p (rank (id, v) + 1))
      (type.stored.map p.store.resolve)).Finite :=
    Ty.finite_readingsList fun t _ => Ty.finite_readings (fun _ => finite_grade p _) t
  refine (Set.Finite.image2
    (fun stored result => CloneKey.mk id 0 (some (AllocType.key p.store ⟨[], stored, result⟩)))
    hstored (finite_gradedReadings p rank id type.result)).subset ?_
  rintro ⟨_, index, inst⟩ ⟨rfl, b', θ, hθ, hgood, hhead, hkey⟩
  cases hhead with
  | closure hworking' hdeclared =>
      obtain rfl := Option.some.inj (hworking.symm.trans hworking')
      obtain ⟨rfl, rfl⟩ := hkey _ hdeclared
      refine ⟨type.stored.map (Ty.mapVars θ), ?_, _, reading_mem hreg hθ hgood type.result, rfl⟩
      refine List.forall₂_map_left_iff.mpr (List.forall₂_map_right_iff.mpr ?_)
      exact List.forall₂_same.mpr fun t _ => reading_mem hreg hθ hgood t

theorem finite_copyKeys_top (hreg : p.store.Regular 0) {t : TopLevel} {types : List Ty}
    (hworking : t.lhs.map TopName.defining = types.map some) :
    (copyKeys p rank id (.top t)).Finite := by
  refine ((List.finite_toSet types.zipIdx).biUnion fun x _ =>
    (finite_gradedReadings p rank id x.1).image
      fun u => CloneKey.mk id x.2 (some (p.store.text u))).subset ?_
  rintro ⟨_, index, inst⟩ ⟨rfl, b', θ, hθ, hgood, hhead, hkey⟩
  cases hhead with
  | @top _ t' types' hworking' hdeclared =>
      obtain rfl : types = types' :=
        List.map_injective_iff.mpr (Option.some_injective Ty) (hworking.symm.trans hworking')
      obtain ⟨c, hc, rfl⟩ := hkey
      obtain ⟨l, hl, hc⟩ := Option.bind_eq_some_iff.mp hc
      have hget := congrArg (·[index]?) hdeclared
      simp only [List.getElem?_map, hl, Option.map_some, hc] at hget
      obtain ⟨u, hu, heq⟩ := Option.map_eq_some_iff.mp hget.symm
      obtain rfl := Option.some.inj heq
      refine Set.mem_biUnion (x := (u, index)) (List.mem_zipIdx_iff_getElem?.mpr hu) ?_
      exact ⟨_, reading_mem hreg hθ hgood u, rfl⟩

/-- A definition has finitely many copies at graded readings. -/
theorem finite_copyKeys (h : Complete p) {d : Defn} (hd : p.defns[id]? = some d) :
    (copyKeys p rank id d.body).Finite := by
  cases hb : d.body with
  | block b =>
      obtain ⟨type, hworking, -, -⟩ := quantifies_block h hd hb
      exact finite_copyKeys_block h.regular hworking
  | closure k =>
      obtain ⟨type, hworking, -, -⟩ := quantifies_closure h hd hb
      exact finite_copyKeys_closure h.regular hworking
  | top t =>
      obtain ⟨types, hworking⟩ := working_names h hd hb
      exact finite_copyKeys_top h.regular hworking
  | external e =>
      refine Set.finite_empty.subset ?_
      rintro k ⟨-, b', θ, -, -, hhead, -⟩
      cases hhead

/-- The keys of all copies with code. -/
def codeKeys (p : Program) (rank : DefnId × Nat → Nat) : Set CloneKey :=
  ⋃ x ∈ {x | x ∈ p.defns.toList.zipIdx}, {.own x.2} ∪ copyKeys p rank x.2 x.1.body

theorem finite_codeKeys (h : Complete p) (rank : DefnId × Nat → Nat) :
    (codeKeys p rank).Finite := by
  refine (List.finite_toSet p.defns.toList.zipIdx).biUnion fun x hx => ?_
  refine (Set.finite_singleton _).union (finite_copyKeys h ?_)
  rw [← Array.getElem?_toList]
  exact List.mem_zipIdx_iff_getElem?.mp hx

theorem key_mem_codeKeys {extra : List Pending} {s : State}
    (htyped : Typed p (Graded p rank) extra s) {k : CloneKey} {j : DefnId} (hk : (k, j) ∈ s.clones)
    (hcode : hasCode p k.defn = true) : k ∈ codeKeys p rank := by
  obtain ⟨d, d', hd, -, hkey, hheaded⟩ := htyped.heads hk
  refine Set.mem_biUnion (x := (d, k.defn)) ?_ ?_
  · refine List.mem_zipIdx_iff_getElem?.mpr ?_
    rw [Array.getElem?_toList]
    exact hd
  · refine hkey.imp id fun hkey => ⟨rfl, d'.body, ?_⟩
    generalize hb : d.body = b at hheaded
    generalize d'.body = b' at hheaded hkey
    cases hheaded with
    | copy hθ hgood hhead => exact ⟨_, hθ, hgood, hhead, hkey⟩
    | external _ _ =>
        rw [hasCode, hd, Option.map_some, hb] at hcode
        cases hcode

/-- There is a bound on the number of copies. -/
theorem exists_made_le (h : Complete p) (rank : DefnId × Nat → Nat) :
    ∃ bound, ∀ {extra : List Pending} {s : State},
    Typed p (Graded p rank) extra s → s.made p ≤ bound := by
  classical
  refine ⟨(finite_codeKeys h rank).toFinset.card, fun {extra s} htyped => ?_⟩
  let made := (s.clones.filter fun x => hasCode p x.1.defn).map Prod.fst
  have hnodup : made.Nodup := htyped.keys.sublist (List.filter_sublist.map _)
  calc
    s.made p = made.length := by rw [State.made, List.countP_eq_length_filter, List.length_map]
    _ = made.toFinset.card := (List.toFinset_card_of_nodup hnodup).symm
    _ ≤ _ := by
      refine Finset.card_le_card fun k hk => ?_
      obtain ⟨⟨k, j⟩, hmem, rfl⟩ := List.mem_map.mp (List.mem_toFinset.mp hk)
      obtain ⟨hmem, hcode⟩ := List.mem_filter.mp hmem
      exact (Set.Finite.mem_toFinset _).mpr (key_mem_codeKeys htyped hmem hcode)

end Keys

/-! ### Runs -/

section Runs

variable {p : Program} {Good : DefnId → (Nat → Ty) → Prop} {s : State}

theorem run_of_empty (hqueue : s.queue = []) (fuel : Nat) : Yields (run fuel) s () s := by
  cases fuel with
  | zero =>
      rw [run]
      refine yields_bind.mpr ⟨s, s, rfl, ?_⟩
      rw [hqueue]
      rfl
  | succ fuel =>
      rw [run]
      refine yields_bind.mpr ⟨s, s, rfl, ?_⟩
      rw [hqueue]
      rfl

/-- One request is met, and the run goes on. -/
theorem run_of_fill {q : Pending} {queue : List Pending} {fuel : Nat} {s₁ s₂ : State}
    (hqueue : s.queue = q :: queue) (hfill : Yields (fill q) { s with queue } () s₁)
    (hrun : Yields (run fuel) s₁ () s₂) : Yields (run (fuel + 1)) s () s₂ := by
  rw [run]
  refine yields_bind.mpr ⟨s, s, rfl, ?_⟩
  rw [hqueue]
  exact yields_bind.mpr ⟨(), _, rfl, yields_bind.mpr ⟨(), s₁, hfill, hrun⟩⟩

/-- If there is a bound on the number of copies, a run empties the queue. Each step meets a request,
so that there are more copies with every step than there are requests. -/
theorem run_ends (h : Complete p) (hfollowed : Followed p Good) {bound : Nat}
    (hbound : ∀ {s : State}, Typed p Good [] s → s.made p ≤ bound) {fuel : Nat}
    (ht : Tracks p [] s) (htyped : Typed p Good [] s)
    (hfuel : bound + s.queue.length ≤ s.made p + fuel) :
    ∃ s', Yields (run fuel) s () s' ∧ s'.queue = [] := by
  induction fuel generalizing s with
  | zero =>
      have hmade := hbound htyped
      have hqueue : s.queue = [] := List.eq_nil_of_length_eq_zero (by omega)
      exact ⟨s, run_of_empty hqueue 0, hqueue⟩
  | succ fuel ih =>
      cases hqueue : s.queue with
      | nil => exact ⟨s, run_of_empty hqueue (fuel + 1), hqueue⟩
      | cons q queue =>
          obtain ⟨s₁, hfill, hsteps, ht₁, htyped₁⟩ :=
            fill_meets h h.prepared hfollowed (ht.pop hqueue) (htyped.pop hqueue)
          have hcount : s₁.queue.length + s.made p = queue.length + s₁.made p := hsteps.count
          obtain ⟨s₂, hrun, hempty⟩ := ih ht₁ htyped₁ (by
            rw [hqueue, List.length_cons] at hfuel
            omega)
          exact ⟨s₂, run_of_fill hqueue hfill hrun, hempty⟩

end Runs

/-- The entrypoints are asked for, and however many steps a run is given from some number on, it ends
with an empty queue. -/
def Ends (p : Program) : Prop :=
  ∃ s, Yields (p.entries.forM fun id => do let _ ← entry id) (.start p) () s ∧
    ∃ n, ∀ fuel, n ≤ fuel → ∃ s', Yields (run fuel) s () s' ∧ s'.queue = []

theorem ends_of_nonexpansive {p : Program} (h : Complete p)
    (hentries : ∀ id ∈ p.entries, CanEnter p id) (hflows : p.Nonexpansive) : Ends p := by
  have hp := h.prepared
  obtain ⟨rank, hrank⟩ := hflows.exists_ranked
  have hlt : ∀ id ∈ p.entries, id < p.defns.size := by
    intro id hid
    obtain ⟨d, hd, -⟩ := hentries id hid
    exact (Array.getElem?_eq_some_iff.mp hd).1
  obtain ⟨hroots, hclosed, -⟩ := Program.reachable_closed (fun _ => id) hlt fun i _ j hj => by
    obtain ⟨d, hd, hj⟩ := mem_getD_map.mp hj
    exact hp.refs hd j (List.mem_eraseDups.mp hj)
  have hgood : ∀ id ∈ p.entries, Graded p rank id (valuation p.store []) := by
    refine fun id hid => ⟨hroots id hid, fun v hv => ?_⟩
    rw [valuation_of_none h.regular hv]
    exact ground_var hv ▸ default_mem_grade _ _
  obtain ⟨s, hyields, -, ht, htyped, -⟩ :=
    entries_typed h hentries hgood (tracks_start hp.whole) typed_start
  obtain ⟨bound, hbound⟩ := exists_made_le h rank
  refine ⟨s, hyields, bound + s.queue.length, fun fuel hfuel => ?_⟩
  exact run_ends h (followed_graded h hrank hclosed) hbound ht htyped (by omega)

instance (p : Program) (id : DefnId) : Decidable (CanEnter p id) :=
  decidable_of_iff
    ((p.defns[id]?).any (fun d => !d.body.isPolymorphic && hasCode p id) = true) <| by
      simp [CanEnter, Option.any_eq_true]

/-- Specialisation ends: if a program is loaded, its check ends with no failure, its entrypoints are
definitions with code that quantify nothing, and no flow of types that grows lies on a cycle, then
the queue is empty after finitely many steps. -/
theorem specialize_ends {file text : String} {names : List String} {p : Program}
    {log : FailureLog} {c : Checker}
    (hload : (Program.parse file text >>= fun p => Compiler.addEntries p names) = .ok p)
    (hcheck : p.check.run ⟨p, log⟩ = (.ok (), c)) (hlog : c.log.entries = [])
    (hentries : ∀ id ∈ c.program.entries, CanEnter c.program id)
    (hflows : c.program.Nonexpansive) : Ends c.program :=
  ends_of_nonexpansive (Typing.complete_of_check (Source.loaded_of_parse hload) hcheck hlog) hentries
    hflows

/-- A text with a block that calls itself at its own type and another block at a larger one. -/
def wrapText : String :=
  "types:\n- name: Box\n  params: [a]\n  cfuns:\n  - name: B\n    fields: [a]\nblocks:\n" ++
  "- name: f\n  type: \"[Word] >>= [Word]\"\n  params: [n]\n  code:\n  - call: wrap\n" ++
  "    args: [n]\n- name: wrap\n  params: [x]\n  code:\n  - bind: [y]\n    data: B\n" ++
  "    args: [x]\n  - bind: [z]\n    call: same\n    args: [y]\n  - call: wrap\n    args: [x]\n" ++
  "- name: same\n  params: [x]\n  code:\n  - return: [x]\n"

theorem specialize_ends_wrap : ∃ p c,
    (Program.parse "wrap" wrapText >>= fun p => Compiler.addEntries p ["f"]) = .ok p ∧
    p.check.run ⟨p, .empty⟩ = (.ok (), c) ∧ c.log.entries = [] ∧
    c.program.flows.map Flow.grows = [true, false, false] ∧ Ends c.program := by
  have hall : (accepted "wrap" wrapText ["f"]).any (fun c =>
      decide (c.program.flows.map Flow.grows = [true, false, false] ∧
        (∀ id ∈ c.program.entries, CanEnter c.program id) ∧
        ∀ f ∈ c.program.flows, f.source.1 + f.grows.toNat ≤ f.target.1)) = true := by
    rw [accepted_eq _ wrapText _
      (toList_append_ofList (toList_append_ofList (toList_append_ofList (toList_append_ofList
        String.toList_ofList))))]
    decide +kernel
  obtain ⟨c, hc, hall⟩ := (Option.any_eq_true _ _).mp hall
  obtain ⟨hgrows, hentries, hranked⟩ := of_decide_eq_true hall
  obtain ⟨p, hload, hcheck, hlog⟩ := accepted_spec hc
  have hflows : c.program.Ranked Prod.fst := hranked
  exact ⟨p, c, hload, hcheck, hlog, hgrows,
    specialize_ends hload hcheck hlog hentries hflows.nonexpansive⟩

end Mil.Mono

/-!
Specialisation need not end. A block with a declared type may call itself at a larger one. The copy
at a type then asks for the copy at the larger type, so that no finite set of copies has all that its
members ask for.
-/

namespace Mil.Mono

open Typing (AtomHas Checker Complete DefnHas accepted accepted_eq accepted_spec)

/-- A generic block puts its parameter into a constructor and calls itself with the result. -/
structure Growing (p : Program) (g : DefnId) (k : Cfun) : Prop where
  block : ∃ d b x y inst inst', p.defns[g]? = some d ∧ d.body = .block b ∧ b.generics ≠ [] ∧
    b.params = [x] ∧ b.body = some (.bind [y] (.data k [.temp x] inst)
      (.done (.call ⟨g, [.temp y], inst'⟩)))
  cfun : ∃ name, k.type.parts = [.gen 0, .ap (.con (.data name)) (.gen 0)]

/-- Is the block one of these? -/
def isGrowing (p : Program) (g : DefnId) : Bool :=
  match (p.defns[g]?).map Defn.body with
  | some (.block b) =>
    match b.params, b.body with
    | [x], some (.bind [y] (.data k [.temp x'] _) (.done (.call ⟨g', [.temp y'], _⟩))) =>
      !b.generics.isEmpty && x == x' && y == y' && g == g' &&
        match k.type.parts with
        | [.gen 0, .ap (.con (.data _)) (.gen 0)] => true
        | _ => false
    | _, _ => false
  | _ => false

theorem exists_growing {p : Program} {g : DefnId} (h : isGrowing p g = true) :
    ∃ k, Growing p g k := by
  unfold isGrowing at h
  split at h
  next b hb =>
    obtain ⟨d, hd, hb⟩ := Option.map_eq_some_iff.mp hb
    split at h
    next x y k x' inst g' y' inst' hparams hbody =>
      simp only [Bool.and_eq_true, Bool.not_eq_true', List.isEmpty_eq_false_iff, beq_iff_eq] at h
      obtain ⟨⟨⟨⟨hgenerics, rfl⟩, rfl⟩, rfl⟩, hcfun⟩ := h
      refine ⟨k, ⟨d, b, x, y, inst, inst', hd, hb, hgenerics, hparams, hbody⟩, ?_⟩
      split at hcfun
      next name hparts => exact ⟨name, hparts⟩
      next => cases hcfun
    next => cases h
  next => cases h

section Growing

variable {p : Program} {g : DefnId} {k : Cfun} {s : State}

/-- A copy of such a block does the same, with a copy of the block. -/
theorem Growing.copy (h : Growing p g k) {S : DefnId → DefnId → Prop} {d : Defn} {body : DefnBody}
    (hd : p.defns[g]? = some d) (hcopy : BodyCopy p S d.body body) :
    ∃ b x y inst j inst', body = .block b ∧ b.params = [x] ∧ S g j ∧
      b.body = some (.bind [y] (.data k [.temp x] inst) (.done (.call ⟨j, [.temp y], inst'⟩))) := by
  obtain ⟨d₀, o, x, y, inst, inst', hd₀, ho, -, hparams, hbody⟩ := h.block
  obtain rfl := Option.some.inj (hd₀.symm.trans hd)
  rw [ho] at hcopy
  cases hcopy with
  | @block _ b _ _ hsource hcode hlen _ hcopy _ =>
  rw [hbody] at hsource
  obtain rfl := Option.some.inj hsource
  rw [hparams] at hlen hcopy
  obtain ⟨x', hx'⟩ := List.length_eq_one_iff.mp hlen
  rw [hx'] at hcopy
  cases hcopy with
  | bind htail hlen hfresh hnext =>
  obtain ⟨y', rfl⟩ := List.length_eq_one_iff.mp hlen
  have hself (t u : Temp) (env : Renames) : (env.extend [t] [u]).lookup t = some u := by
    simp [Renames.extend]
  cases htail with
  | data hargs =>
  cases hargs with
  | cons harg hargs =>
  cases hargs
  cases harg with
  | temp hlookup =>
  obtain rfl := Option.some.inj ((hself x x' []).symm.trans hlookup)
  cases hnext with
  | done htail =>
  cases htail with
  | @call _ c hcall =>
  obtain ⟨j, args, inst₂⟩ := c
  obtain ⟨hserves, hargs⟩ := hcall
  cases hargs with
  | cons harg hargs =>
  cases hargs
  cases harg with
  | temp hlookup =>
  obtain rfl := Option.some.inj ((hself y y' _).symm.trans hlookup)
  exact ⟨b, x', y', _, j, inst₂, rfl, hx', hserves, hcode⟩

/-- An operand has one type. -/
theorem eq_of_atomHas {Γ : Typing.Context} {a : Atom} {τ τ' : Ty} (h : AtomHas Γ a τ)
    (h' : AtomHas Γ a τ') : τ = τ' := by
  obtain ⟨t, ht, rfl, -⟩ := h
  obtain ⟨t', ht', rfl, -⟩ := h'
  rw [Option.some.inj (ht.symm.trans ht')]

/-- An instance without variables has types in place of the quantified variables. -/
theorem exists_eq_instantiate {store : Store} (hreg : store.Regular 0) {kinds : List Kind}
    {parts inst : List Ty} (h : store.IsInstance kinds parts inst) (hclosed : ClosedUnder 0 inst) :
    ∃ types, inst = parts.map (Ty.instantiate types) := by
  obtain ⟨types, -, heq⟩ := h.solved _ (solves_valuation hreg [])
  refine ⟨types, Eq.trans (Eq.symm ?_) heq⟩
  exact (List.map_congr_left fun t ht => (hclosed t ht).mapVars _).trans (List.map_id' _)

/-- The copy is called at a type that is larger by a constructor. -/
theorem Growing.step (h : Growing p g k) (hreg : p.store.Regular 0) {b : Block} {x y : Temp}
    {inst : Option AllocType} {j : DefnId} {inst' : Option BlockType} (hparams : b.params = [x])
    (hbody : b.body = some (.bind [y] (.data k [.temp x] inst)
      (.done (.call ⟨j, [.temp y], inst'⟩))))
    (hhas : DefnHas (s.context p) (.block b)) :
    ∃ type asked name t, b.defining = some type ∧ (s.context p).block j asked ∧
      type.dom = .tuple [t] ∧ asked.dom = .tuple [.ap (.con (.data name)) t] ∧
      asked.rng = type.rng := by
  obtain ⟨name, hcfun⟩ := h.cfun
  cases hhas with
  | @block _ type code τs htype hcode hdom hparams' hhas =>
  rw [hbody] at hcode
  obtain rfl := Option.some.inj hcode
  rw [hparams] at hparams'
  cases hparams' with
  | @cons _ t _ _ hx hnil =>
  cases hnil
  generalize hrng : (s.context p).read type.rng = rng at hhas
  cases hhas with
  | bind htail hvars hnext =>
  cases htail with
  | @data _ _ made huse hargs =>
  obtain ⟨hfinal, hinst⟩ := huse
  obtain ⟨types, hparts⟩ := exists_eq_instantiate hreg hinst hfinal.closed
  obtain ⟨kinds, stored, result⟩ := made
  have happend : stored ++ [result] = [Ty.instantiate types (.gen 0)] ++
      [.ap (.con (.data name)) (Ty.instantiate types (.gen 0))] := by
    rw [hcfun] at hparts
    simpa [AllocType.parts, Ty.instantiate] using hparts
  obtain ⟨rfl, hresult⟩ := List.append_inj' happend rfl
  obtain rfl := List.singleton_inj.mp hresult
  generalize Ty.instantiate types (.gen 0) = u at hargs hvars
  obtain rfl : t = u := by
    cases hargs with
    | cons hx' _ => exact eq_of_atomHas hx hx'
  cases hvars with
  | @cons _ v _ _ hy hnil =>
  cases hnil
  cases hnext with
  | done htail =>
  cases htail with
  | call hcall =>
  cases hcall with
  | @mk _ _ asked _ huse hdom' hargs' =>
  cases hargs' with
  | @cons _ v' _ _ hy' hnil =>
  cases hnil
  obtain rfl := eq_of_atomHas hy hy'
  exact ⟨type, asked, name, t, htype, huse, hdom, hdom', hrng.symm⟩

theorem length_render_lt (name : String) (t : Ty) :
    t.render.length < (Ty.ap (.con (.data name)) t).render.length := by
  have hrender : (Ty.ap (.con (.data name)) t).render =
      (Tycon.data name).name ++ Ty.renderAt.renderArg t.isAp t.render := by
    simp [Ty.render, Ty.renderAt]
  rw [hrender, String.length_append, Ty.renderAt.renderArg]
  have hspace : " ".length = 1 := rfl
  have hopen : " (".length = 2 := rfl
  split
  · rw [String.length_append, String.length_append, hopen]
    omega
  · rw [String.length_append, hspace]
    omega

/-- Block types with a larger type in the domain print longer. -/
theorem length_key_lt {store : Store} (hreg : store.Regular 0) {type asked : BlockType}
    {name : String} {t : Ty} (hdom : type.dom = .tuple [t])
    (hdom' : asked.dom = .tuple [.ap (.con (.data name)) t]) (hrng : asked.rng = type.rng) :
    (type.key store).length < (asked.key store).length := by
  have htuple (u : Ty) : (Ty.tuple [u]).render.length = u.render.length + 2 := by
    have hopen : "[".length = 1 := rfl
    have hclose : "]".length = 1 := rfl
    simp [Ty.render, Ty.renderAt, Ty.renderList]
    omega
  have hlt := length_render_lt name (t.mapVars store.reading)
  rw [BlockType.key, BlockType.key, hdom, hdom', hrng]
  simp only [Store.text, hreg.resolve_eq, Ty.mapVars_tuple, Ty.mapVars_ap, Ty.mapVars_con,
    List.map_cons, List.map_nil, String.length_append, htuple]
  omega

/-- How long the text in a key is. -/
def CloneKey.length (κ : CloneKey) : Nat := (κ.inst.getD "").length

/-- The text in the key of a copy of such a block is its declared type. -/
theorem Growing.inst_eq (h : Growing p g k) {Good : DefnId → (Nat → Ty) → Prop}
    (ht : Tracks p [] s) (htyped : Typed p Good [] s) {κ : CloneKey} {j : DefnId}
    (hκ : (κ, j) ∈ s.clones) (hg : κ.defn = g) {d' : Defn} {b : Block} {type : BlockType}
    (hd' : s.program.defns[j]? = some d') (hb : d'.body = .block b)
    (htype : b.declared = some type) : κ.length = (type.key p.store).length := by
  obtain ⟨d, o, -, -, -, -, hd, ho, hgenerics, -⟩ := h.block
  obtain ⟨d₁, d₂, -, hd₂, hkey, -⟩ := htyped.heads hκ
  obtain rfl := Option.some.inj (hd'.symm.trans hd₂)
  rw [hb] at hkey
  rcases hkey with hown | hkey
  · rw [hown, hg] at hκ
    have hmono := ht.own hκ hd
    rw [ho, DefnBody.isPolymorphic, Bool.not_eq_false', List.isEmpty_iff] at hmono
    exact absurd hmono hgenerics
  · rw [CloneKey.length, (hkey type htype).2, Option.getD_some]

theorem Growing.exists_clone (h : Growing p g k) {j : DefnId} (hserves : s.Serves p g j) :
    ∃ κ, (κ, j) ∈ s.clones ∧ κ.defn = g := by
  refine hserves.resolve_right ?_
  rintro ⟨-, d', e, hd', he, -⟩
  obtain ⟨d, o, -, -, -, -, hd, ho, -⟩ := h.block
  obtain rfl := Option.some.inj (hd.symm.trans hd')
  rw [ho] at he
  cases he

/-- Once nothing waits, each copy of such a block has made another one with a longer key. -/
theorem Growing.exists_longer (h : Growing p g k) (hreg : p.store.Regular 0)
    {Good : DefnId → (Nat → Ty) → Prop} (ht : Tracks p [] s) (htyped : Typed p Good [] s)
    (hqueue : s.queue = []) {κ : CloneKey} {j : DefnId} (hκ : (κ, j) ∈ s.clones)
    (hg : κ.defn = g) : ∃ κ' j', (κ', j') ∈ s.clones ∧ κ'.defn = g ∧ κ.length < κ'.length := by
  have hwaits : ¬ Waits ([] ++ s.queue) j := by
    rw [hqueue]
    rintro ⟨q, hq, -⟩
    cases hq
  obtain ⟨d, -, -, -, -, -, hd, -⟩ := h.block
  obtain ⟨d', hd', hcopy⟩ := (ht.served hκ (hg ▸ hd)).resolve_left hwaits
  obtain ⟨b, x, y, inst, j', inst', hb, hparams, hserves, hbody⟩ := h.copy hd hcopy
  obtain ⟨d₁, hd₁, hfinished, hhas⟩ := htyped.filled hκ hwaits
  obtain rfl := Option.some.inj (hd'.symm.trans hd₁)
  rw [hb] at hfinished hhas
  obtain ⟨type, asked, name, t, hdefining, huse, hdom, hdom', hrng⟩ :=
    h.step hreg hparams hbody hhas
  obtain ⟨-, -, d₂, b₂, type₂, hd₂, hb₂, htype₂, -, hkey⟩ := huse
  obtain ⟨κ', hκ', hg'⟩ := h.exists_clone hserves
  refine ⟨κ', j', hκ', hg', ?_⟩
  rw [h.inst_eq ht htyped hκ hg hd' hb (hfinished.2 ▸ hdefining),
    h.inst_eq ht htyped hκ' hg' hd₂ hb₂ htype₂, hkey]
  exact length_key_lt hreg hdom hdom' hrng

/-- Once nothing waits, there is no copy of such a block: of finitely many copies one would have the
longest key. -/
theorem Growing.not_asked (h : Growing p g k) (hreg : p.store.Regular 0)
    {Good : DefnId → (Nat → Ty) → Prop} (ht : Tracks p [] s) (htyped : Typed p Good [] s)
    (hqueue : s.queue = []) {κ : CloneKey} {j : DefnId} (hκ : (κ, j) ∈ s.clones) :
    κ.defn ≠ g := by
  classical
  intro hg
  obtain ⟨⟨κ₁, j₁⟩, hmem, hmax⟩ := Finset.exists_max_image
    (s.clones.toFinset.filter fun x => x.1.defn = g) (fun x => x.1.length)
    ⟨(κ, j), by simpa using ⟨hκ, hg⟩⟩
  rw [Finset.mem_filter, List.mem_toFinset] at hmem
  obtain ⟨κ₂, j₂, hκ₂, hg₂, hlt⟩ := h.exists_longer hreg ht htyped hqueue hmem.1 hmem.2
  have hle := hmax (κ₂, j₂) (by simpa using ⟨hκ₂, hg₂⟩)
  exact absurd hlt (Nat.not_lt.mpr hle)

/-- Once nothing waits, what the body of a copy calls has been asked for. -/
theorem exists_asked_of_call (ht : Tracks p [] s) (hqueue : s.queue = []) {κ : CloneKey}
    {j : DefnId} (hκ : (κ, j) ∈ s.clones) {d : Defn} {o : Block} {c : BlockCall}
    (hd : p.defns[κ.defn]? = some d) (ho : d.body = .block o)
    (hbody : o.body = some (.done (.call c))) : ∃ j', s.Serves p c.block j' := by
  obtain hwaits | ⟨d', -, hcopy⟩ := ht.served hκ hd
  · rw [hqueue] at hwaits
    obtain ⟨q, hq, -⟩ := hwaits
    cases hq
  rw [ho] at hcopy
  generalize d'.body = body at hcopy
  cases hcopy with
  | block hsource _ _ _ hcode _ =>
  rw [hbody] at hsource
  obtain rfl := Option.some.inj hsource
  cases hcode with
  | done htail =>
  cases htail with
  | call hcall => exact ⟨_, hcall.1⟩

end Growing

/-- Does the entrypoint go on with a call of a block that calls itself at a larger type? -/
def entersGrowing (p : Program) (id : DefnId) : Bool :=
  match (p.defns[id]?).map Defn.body with
  | some (.block o) =>
    match o.body with
    | some (.done (.call c)) => isGrowing p c.block
    | _ => false
  | _ => false

/-- If an entrypoint leads to a block that calls itself at a larger type, specialisation does not
end. -/
theorem not_ends_of_entersGrowing {p : Program} (h : Complete p)
    (hentries : ∀ id ∈ p.entries, CanEnter p id) {id : DefnId} (hid : id ∈ p.entries)
    (henters : entersGrowing p id = true) : ¬ Ends p := by
  rintro ⟨s, hyields, n, hruns⟩
  obtain ⟨s', hrun, hqueue⟩ := hruns n (Nat.le_refl n)
  have hstart : Typed p (fun _ _ => True) [] (.start p) := typed_start
  obtain ⟨s₁, hyields₁, -, ht, htyped, hasked⟩ :=
    entries_typed h hentries (fun _ _ => trivial) (tracks_start h.prepared.whole) hstart
  obtain rfl := yields_unique hyields hyields₁
  obtain ⟨hgrows, ht', -⟩ := run_spec h.prepared ht hrun
  have htyped' := run_typed h h.prepared (followed_true h) ht htyped hrun
  unfold entersGrowing at henters
  split at henters
  next o hbody' =>
    obtain ⟨d, hd, ho⟩ := Option.map_eq_some_iff.mp hbody'
    split at henters
    next c hbody =>
      obtain ⟨k, hgrowing⟩ := exists_growing henters
      obtain ⟨κ, hκ⟩ := hasked id hid
      obtain ⟨-, -, ⟨rfl, -⟩ | ⟨hlt, -⟩⟩ := ht.asked hκ
      · obtain ⟨j, hserves⟩ := exists_asked_of_call ht' hqueue (hgrows.clones _ hκ) hd ho hbody
        obtain ⟨κ', hκ', hdefn⟩ := hgrowing.exists_clone hserves
        exact hgrowing.not_asked h.regular ht' htyped' hqueue hκ' hdefn
      · exact absurd (Array.getElem?_eq_some_iff.mp hd).1 (Nat.not_lt.mpr hlt)
    next => cases henters
  next => cases henters

/-- A text with a block of a declared type that calls itself at a larger one. -/
def growText : String :=
  "types:\n- name: Box\n  params: [a]\n  cfuns:\n  - name: B\n    fields: [a]\nblocks:\n" ++
  "- name: f\n  type: \"[Word] >>= [Word]\"\n  params: [n]\n  code:\n  - call: grow\n" ++
  "    args: [n]\n- name: grow\n  type: \"[a] >>= [Word]\"\n  params: [x]\n  code:\n" ++
  "  - bind: [y]\n    data: B\n    args: [x]\n  - call: grow\n    args: [y]\n"

/-- A program that is accepted and whose specialisation does not end. -/
theorem grow_not_ends : ∃ p c,
    (Program.parse "grow" growText >>= fun p => Compiler.addEntries p ["f"]) = .ok p ∧
    p.check.run ⟨p, .empty⟩ = (.ok (), c) ∧ c.log.entries = [] ∧
    (∀ id ∈ c.program.entries, CanEnter c.program id) ∧ ¬ Ends c.program := by
  have hall : (accepted "grow" growText ["f"]).any (fun c =>
      decide ((∀ id ∈ c.program.entries, CanEnter c.program id) ∧
        ∃ id ∈ c.program.entries, entersGrowing c.program id = true)) = true := by
    rw [accepted_eq _ growText _
      (toList_append_ofList (toList_append_ofList (toList_append_ofList String.toList_ofList)))]
    decide +kernel
  obtain ⟨c, hc, hall⟩ := (Option.any_eq_true _ _).mp hall
  obtain ⟨hentries, id, hid, henters⟩ := of_decide_eq_true hall
  obtain ⟨p, hload, hcheck, hlog⟩ := accepted_spec hc
  have hcomplete := Typing.complete_of_check (Source.loaded_of_parse hload) hcheck hlog
  exact ⟨p, c, hload, hcheck, hlog, hentries,
    not_ends_of_entersGrowing hcomplete hentries hid henters⟩

end Mil.Mono
