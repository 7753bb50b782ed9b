import Mil.Proofs.Mono.Keys

/-!
Which references share a copy. A copy of a top-level definition is remembered by the name that was
referred to and by the text of the instance. So all references to one name at types of one text lead to
one copy, which is evaluated once; but references through different names never do, even where they
take the generic variables of the definition at the same types.
-/

namespace Mil.Mono

/-! ### References at one instance -/

/-- The definition that the definition at a position is a copy of: the one that it was asked for, or
itself. -/
def State.source (s : State) (j : DefnId) : DefnId :=
  ((s.clones.find? fun x => x.2 = j).map fun x => x.1.defn).getD j

/-- In the specialised program an entrypoint is its own source, and every definition that can be reached
is a copy of its source, so each reference in it leads to a copy of what the source refers to, by the
same name. Two references to copies of one polymorphic definition lead to the same copy if and only if
they are through the same name and at types that print alike. -/
structure Shares (p q : Program) (source : DefnId → DefnId) : Prop where
  entries : q.entries = p.entries ∧ ∀ id ∈ q.entries, source id = id
  copy : ∀ j ∈ q.reachable, ∃ d₀ d, p.defns[source j]? = some d₀ ∧ q.defns[j]? = some d ∧
    BodyCopy p (fun i j => source j = i) d₀.body d.body
  shared : ∀ {j j' : DefnId} {index index' : Nat} {t t' : Ty} {d₀ : Defn},
    .value j index t ∈ q.reachedUses → .value j' index' t' ∈ q.reachedUses →
    source j = source j' → p.defns[source j]? = some d₀ → d₀.body.isPolymorphic = true →
    (j = j' ↔ index = index' ∧ q.store.text t = q.store.text t')

section Sharing

variable {p : Program} {Good : DefnId → (Nat → Ty) → Prop} {extra : List Pending} {s : State}
  {j index : Nat} {t : Ty}

theorem atom_of_mem_atomUses {a : Atom} (hu : .value j index t ∈ p.atomUses a) :
    ∃ site, a = .top j index site ∧ p.sites[site]? = some (some t) := by
  cases a with
  | temp t => cases hu
  | lit l => cases hu
  | top id index site =>
      obtain ⟨t, ht, heq⟩ := Option.map_eq_some_iff.mp (Option.mem_toList.mp hu)
      cases heq
      exact ⟨site, rfl, Option.join_eq_some_iff.mp ht⟩

theorem atom_of_mem_tailUses {tail : Tail} (hu : .value j index t ∈ p.tailUses tail) :
    ∃ site, .top j index site ∈ tail.atoms ∧ p.sites[site]? = some (some t) := by
  rcases List.mem_append.mp hu with hu | hu
  · obtain ⟨a, ha, hu⟩ := List.mem_flatMap.mp hu
    obtain ⟨site, rfl, hsite⟩ := atom_of_mem_atomUses hu
    exact ⟨site, ha, hsite⟩
  · cases tail with
    | call c =>
        obtain ⟨inst, -, heq⟩ := Option.map_eq_some_iff.mp (Option.mem_toList.mp hu)
        cases heq
    | alloc k args inst =>
        obtain ⟨inst, -, heq⟩ := Option.map_eq_some_iff.mp (Option.mem_toList.mp hu)
        cases heq
    | _ => cases hu

theorem atom_of_mem_codeUses {c : Code} (hu : .value j index t ∈ p.codeUses c) :
    ∃ site, .top j index site ∈ c.atoms ∧ p.sites[site]? = some (some t) := by
  induction c with
  | bind vars tail next ih =>
      rcases List.mem_append.mp hu with hu | hu
      · obtain ⟨site, ha, hsite⟩ := atom_of_mem_tailUses hu
        exact ⟨site, List.mem_append_left _ ha, hsite⟩
      · obtain ⟨site, ha, hsite⟩ := ih hu
        exact ⟨site, List.mem_append_right _ ha, hsite⟩
  | done tail => exact atom_of_mem_tailUses hu
  | branch cond t f =>
      rcases List.mem_append.mp hu with hu | hu
      · obtain ⟨site, rfl, hsite⟩ := atom_of_mem_atomUses hu
        exact ⟨site, .head _, hsite⟩
      rcases List.mem_append.mp hu with hu | hu
      · obtain ⟨site, ha, hsite⟩ := atom_of_mem_tailUses hu
        exact ⟨site, List.mem_append_left _ (.tail _ ha), hsite⟩
      · obtain ⟨site, ha, hsite⟩ := atom_of_mem_tailUses hu
        exact ⟨site, List.mem_append_right _ ha, hsite⟩
  | case scrut alts default =>
      rcases List.mem_append.mp hu with hu | hu
      · obtain ⟨site, rfl, hsite⟩ := atom_of_mem_atomUses hu
        exact ⟨site, .head _, hsite⟩
      · obtain ⟨c, hc, hu⟩ := List.mem_flatMap.mp hu
        obtain ⟨site, ha, hsite⟩ := atom_of_mem_tailUses hu
        exact ⟨site, .tail _ (List.mem_flatMap.mpr ⟨c, hc, ha⟩), hsite⟩

/-- A value that is used is an operand, with the type recorded at it. -/
theorem atom_of_mem_uses {b : DefnBody} (hu : .value j index t ∈ p.uses b) :
    ∃ site, .top j index site ∈ b.atoms ∧ p.sites[site]? = some (some t) := by
  cases b with
  | block b =>
      obtain ⟨c, hc, hu⟩ := mem_getD_map.mp hu
      obtain ⟨site, ha, hsite⟩ := atom_of_mem_codeUses hu
      exact ⟨site, mem_getD_map.mpr ⟨c, hc, ha⟩, hsite⟩
  | closure k =>
      obtain ⟨tail, htail, hu⟩ := mem_getD_map.mp hu
      obtain ⟨site, ha, hsite⟩ := atom_of_mem_tailUses hu
      exact ⟨site, mem_getD_map.mpr ⟨tail, htail, ha⟩, hsite⟩
  | top c =>
      obtain ⟨tail, htail, hu⟩ := mem_getD_map.mp hu
      obtain ⟨site, ha, hsite⟩ := atom_of_mem_tailUses hu
      exact ⟨site, mem_getD_map.mpr ⟨tail, htail, ha⟩, hsite⟩
  | external e => cases hu

theorem Tracks.source_eq (ht : Tracks p extra s) {k : CloneKey} (hk : (k, j) ∈ s.clones) :
    s.source j = k.defn := by
  rw [State.source]
  cases hfind : s.clones.find? fun x => x.2 = j with
  | none => simpa using List.find?_eq_none.mp hfind _ hk
  | some x =>
      obtain ⟨k', j'⟩ := x
      obtain rfl : j' = j := by simpa using List.find?_some hfind
      exact ht.source (List.mem_of_find?_eq_some hfind) hk

/-- Externals that quantify nothing are their own sources. -/
theorem Tracks.source_external (ht : Tracks p extra s) (hj : MonoExternal p j) : s.source j = j := by
  by_cases hasked : s.Asked j
  · obtain ⟨k, hk⟩ := hasked
    obtain ⟨d, -, hd, -⟩ := hj
    rw [ht.source_eq hk]
    obtain ⟨-, -, ⟨heq, -⟩ | ⟨hle, -⟩⟩ := ht.asked hk
    · exact heq.symm
    · exact absurd (Array.getElem?_eq_some_iff.mp hd).1 (Nat.not_lt.mpr hle)
  · have hfind : s.clones.find? (fun x => x.2 = j) = none := by
      rw [List.find?_eq_none]
      rintro ⟨k, j'⟩ hk heq
      obtain rfl := of_decide_eq_true heq
      exact hasked ⟨k, hk⟩
    rw [State.source, hfind]
    rfl

theorem Tracks.source_of_serves (ht : Tracks p extra s) {i : DefnId} (h : s.Serves p i j) :
    s.source j = i := by
  rcases h with ⟨k, hk, rfl⟩ | ⟨rfl, hj⟩
  · exact ht.source_eq hk
  · exact ht.source_external hj

/-- A copy of a polymorphic definition that an operand leads to was remembered by the name and the text
of the type recorded at the operand. -/
theorem key_of_leads (ht : Tracks p extra s) (hj : s.Asked j ∨ MonoExternal p j) {site : SiteId}
    (hleads : s.Leads p.defns.size (.top j index site)) (hsite : s.program.sites[site]? = some (some t))
    {d₀ : Defn} (hd₀ : p.defns[s.source j]? = some d₀) (hpoly : d₀.body.isPolymorphic = true) :
    (⟨s.source j, index, some (s.program.store.text t)⟩, j) ∈ s.clones := by
  obtain ⟨o, ho, hkey⟩ := hleads
  obtain rfl := Option.some.inj (hsite.symm.trans ho)
  -- a definition of the program that is used as it is quantifies nothing
  have hlt : ¬ j < p.defns.size := by
    intro hlt
    rcases hj with ⟨k, hk⟩ | hext
    · obtain ⟨-, -, ⟨rfl, hown⟩ | ⟨hle, -⟩⟩ := ht.asked hk
      · rw [ht.source_eq hk] at hd₀
        rw [ht.own (hown ▸ hk) hd₀] at hpoly
        cases hpoly
      · exact absurd hlt (Nat.not_lt.mpr hle)
    · obtain ⟨d, e, hd, he, hmono⟩ := hext
      rw [ht.source_external ⟨d, e, hd, he, hmono⟩] at hd₀
      obtain rfl := Option.some.inj (hd.symm.trans hd₀)
      rw [he, DefnBody.isPolymorphic, hmono] at hpoly
      cases hpoly
  obtain ⟨i, hi⟩ := hkey.resolve_left hlt
  rw [ht.source_eq hi]
  exact hi

/-- When no request waits, the operands of every definition that was asked for lead where they
should. -/
theorem State.AllLead.of_standing (h : s.AllLead p.defns.size []) (ht : Tracks p [] s)
    (hqueue : s.queue = []) (htyped : Typed p Good [] s) {d : Defn}
    (hd : s.program.defns[j]? = some d) (hj : s.Asked j ∨ MonoExternal p j) :
    ∀ a ∈ d.body.atoms, s.Leads p.defns.size a := by
  rcases h hd with ⟨hlt, hcond⟩ | hleads
  · rcases hj with ⟨k, hk⟩ | ⟨d₀, e, hd₀, he, -⟩
    · obtain ⟨-, -, ⟨heq, hown⟩ | ⟨hle, -⟩⟩ := ht.asked hk
      · rcases hcond with hfresh | ⟨q, hq, -⟩
        · rw [hown, ← heq] at hk
          exact absurd hk hfresh
        · rw [List.nil_append, hqueue] at hq
          cases hq
      · exact absurd hlt (Nat.not_lt.mpr hle)
    · obtain rfl : d = d₀ := Option.some.inj (hd.symm.trans (htyped.external_standing ht hd₀ he))
      rw [he]
      exact nofun
  · exact hleads

theorem shares_of_program (h : Typing.Complete p) (hrun : Yields program (.start p) () s) :
    Shares p s.program s.source := by
  obtain ⟨ht, hqueue, hserves⟩ := program_spec h.prepared hrun
  obtain ⟨htyped, hentries⟩ := program_typed h hrun
  obtain ⟨hleads, hsingle⟩ := program_leads h.prepared hrun
  have hwaits (j : DefnId) : ¬ Waits ([] ++ s.queue) j := by
    rintro ⟨q, hq, -⟩
    rw [List.nil_append, hqueue] at hq
    cases hq
  have hkey {j index : Nat} {t : Ty} {d₀ : Defn} (hu : .value j index t ∈ s.program.reachedUses)
      (hd₀ : p.defns[s.source j]? = some d₀) (hpoly : d₀.body.isPolymorphic = true) :
      (⟨s.source j, index, some (s.program.store.text t)⟩, j) ∈ s.clones := by
    obtain ⟨i, hi, hu⟩ := List.mem_flatMap.mp hu
    obtain ⟨d, hd, hu⟩ := mem_getD_map.mp hu
    have hstanding := standing_of_reachable h ht hqueue htyped hentries hi
    have hj := (derivation_of_standing ht hqueue htyped hd hstanding).2.refs_within context_within
      (fun e he => impl_of_standing h ht hqueue htyped hd he hstanding) (Program.target_mem_of_mem_uses hu)
    obtain ⟨site, ha, hsite⟩ := atom_of_mem_uses hu
    exact key_of_leads ht hj (hleads.of_standing ht hqueue htyped hd hstanding _ ha) hsite hd₀ hpoly
  refine ⟨⟨htyped.start.entries, fun id hid => ?_⟩, fun j hj => ?_,
    fun {j j' index index' t t' d₀} hu hu' hsource hd₀ hpoly => ?_⟩
  · rw [htyped.start.entries] at hid
    exact ht.source_of_serves (hserves id hid)
  · rcases standing_of_reachable h ht hqueue htyped hentries hj with ⟨k, hk⟩ | hext
    · obtain ⟨d₀, -, hd₀, -⟩ := htyped.heads hk
      obtain ⟨d, hd, hcopy⟩ := (ht.served hk hd₀).resolve_left (hwaits j)
      rw [← ht.source_eq hk] at hd₀
      exact ⟨d₀, d, hd₀, hd, hcopy.mono fun _ _ => ht.source_of_serves⟩
    · obtain ⟨d, e, hd, he, hmono⟩ := hext
      have hd' := htyped.external_standing ht hd he
      have himpl := impl_of_standing h ht hqueue htyped hd' he (.inr ⟨d, e, hd, he, hmono⟩)
      refine ⟨d, d, ?_, hd', ?_⟩
      · rw [ht.source_external ⟨d, e, hd, he, hmono⟩]
        exact hd
      · rw [he]
        exact .external himpl hmono
  · have hk := hkey hu hd₀ hpoly
    have hk' := hkey hu' (hsource ▸ hd₀) hpoly
    rw [← hsource] at hk'
    refine ⟨?_, ?_⟩
    · rintro rfl
      have heq := hsingle.eq hk hk' nofun nofun
      injection heq with _ hindex htext
      exact ⟨hindex, Option.some.inj htext⟩
    · rintro ⟨rfl, htext⟩
      rw [← htext] at hk'
      exact congrArg Prod.snd (List.inj_on_of_nodup_map htyped.keys hk hk' rfl)

end Sharing

/-! ### Accepted programs -/

open Typing (Checker accepted accepted_eq accepted_spec)

/-- Copies are shared: if a program is loaded, its check ends with no failure and it is specialised, then
every definition that can be reached is a copy of its source, and two references to copies of one
polymorphic definition lead to one copy exactly if they are through one name and at types that print
alike. -/
theorem specialize_shares {file text : String} {names : List String} {p : Program}
    {log : FailureLog} {c : Checker} {q : Program}
    (hload : (Program.parse file text >>= fun p => Compiler.addEntries p names) = .ok p)
    (hcheck : p.check.run ⟨p, log⟩ = (.ok (), c)) (hlog : c.log.entries = [])
    (hq : c.program.specialize = .ok q) :
    ∃ s, program.run (.start c.program) = .ok ((), s) ∧ s.program = q ∧
      Shares c.program q s.source := by
  have h := Typing.complete_of_check (Source.loaded_of_parse hload) hcheck hlog
  obtain ⟨s, hrun, rfl⟩ := exists_of_specialize hq
  exact ⟨s, run_eq_ok.mpr hrun, rfl, shares_of_program h hrun⟩

/-- A text with a top-level definition of two names for one closure, which are both entered at words. -/
def namesText : String :=
  "closures:\n- name: k\n  args: [x]\n  tail: \x7breturn: [x]\x7d\ntops:\n- names: [f, g]\n" ++
  "  tail: \x7bcall: init\x7d\nblocks:\n- name: init\n  code:\n  - bind: []\n    prim: printWord\n" ++
  "    args: [7]\n  - bind: [h]\n    alloc: k\n  - return: [h, h]\n- name: main\n" ++
  "  type: \"[Word] >>= [Word]\"\n  params: [n]\n  code:\n  - bind: [a]\n    enter: f\n" ++
  "    args: [n]\n  - enter: g\n    args: [a]\n"

deriving instance DecidableEq for Scheme

/-- The names of the top-level definition at two positions have one declared type, which quantifies
variables of the definition. -/
def TwinNames (d : TopLevel) (index index' : Nat) : Prop :=
  d.generics ≠ [] ∧ (d.lhs[index]?).isSome ∧
    (d.lhs[index]?).map (fun l => (l.declared, l.generics)) =
      (d.lhs[index']?).map fun l => (l.declared, l.generics)

instance (d : TopLevel) (index index' : Nat) : Decidable (TwinNames d index index') :=
  inferInstanceAs (Decidable (_ ∧ _ ∧ _))

/-- Do the two references lead to different copies of one top-level definition, though their names have
one declared type and are used at one type? -/
def State.partsUses (p : Program) (s : State) : Use → Use → Bool
  | .value j index t, .value j' index' t' =>
    decide (t = t' ∧ s.source j = s.source j' ∧ j ≠ j') &&
      match (p.defns[s.source j]?).map Defn.body with
      | some (.top d) => decide (TwinNames d index index')
      | _ => false
  | _, _ => false

/-- Does specialisation part two uses of the program? -/
def State.partsNames (p : Program) (s : State) : Bool :=
  s.program.reachedUses.any fun u => s.program.reachedUses.any fun v => s.partsUses p u v

theorem exists_partsNames : ∃ p c s,
    (Program.parse "names" namesText >>= fun p => Compiler.addEntries p ["main"]) = .ok p ∧
    p.check.run ⟨p, .empty⟩ = (.ok (), c) ∧ c.log.entries = [] ∧
    program.run (.start c.program) = .ok ((), s) ∧ State.partsNames c.program s = true := by
  have hall : (accepted "names" namesText ["main"]).any (fun c =>
      match program.run (.start c.program) with
      | .ok (_, s) => s.partsNames c.program
      | .error _ => false) = true := by
    rw [accepted_eq _ namesText _ (toList_append_ofList (toList_append_ofList (toList_append_ofList
      (toList_append_ofList String.toList_ofList))))]
    decide +kernel
  obtain ⟨c, hc, hall⟩ := (Option.any_eq_true _ _).mp hall
  obtain ⟨p, hload, hcheck, hlog⟩ := accepted_spec hc
  split at hall
  · rename_i s hrun
    exact ⟨p, c, s, hload, hcheck, hlog, hrun, hall⟩
  · cases hall

/-- Uses that are parted are of two names of one top-level definition at one type. -/
theorem State.exists_of_partsNames {p : Program} {s : State} (h : s.partsNames p = true) :
    ∃ d j j' index index' t, .value j index t ∈ s.program.reachedUses ∧
      .value j' index' t ∈ s.program.reachedUses ∧ s.source j = s.source j' ∧
      (p.defns[s.source j]?).map Defn.body = some (.top d) ∧ TwinNames d index index' ∧ j ≠ j' := by
  obtain ⟨u, hu, h⟩ := List.any_eq_true.mp h
  obtain ⟨v, hv, h⟩ := List.any_eq_true.mp h
  unfold State.partsUses at h
  split at h
  · rw [Bool.and_eq_true] at h
    obtain ⟨hsame, hnames⟩ := h
    obtain ⟨rfl, hsource, hne⟩ := of_decide_eq_true hsame
    split at hnames
    · rename_i d hd
      exact ⟨d, _, _, _, _, _, hu, hv, hsource, hd, of_decide_eq_true hnames, hne⟩
    · cases hnames
  · cases h

/-- Two copies of a top-level definition with one type are of different names. -/
theorem specialize_shares_names : ∃ p c q s j j' index index' t,
    (Program.parse "names" namesText >>= fun p => Compiler.addEntries p ["main"]) = .ok p ∧
    p.check.run ⟨p, .empty⟩ = (.ok (), c) ∧ c.log.entries = [] ∧ c.program.specialize = .ok q ∧
    Shares c.program q (State.source s) ∧ .value j index t ∈ q.reachedUses ∧
    .value j' index' t ∈ q.reachedUses ∧ s.source j = s.source j' ∧ j ≠ j' ∧ index ≠ index' := by
  obtain ⟨p, c, s, hload, hcheck, hlog, hrun, hparts⟩ := exists_partsNames
  obtain ⟨d, j, j', index, index', t, hu, hu', hsource, hd, ⟨hgenerics, -⟩, hne⟩ :=
    State.exists_of_partsNames hparts
  have hq : c.program.specialize = .ok s.program := by
    rw [Program.specialize, hrun]
    rfl
  obtain ⟨s', hrun', -, hshares⟩ := specialize_shares hload hcheck hlog hq
  obtain rfl : s' = s := by
    rw [hrun] at hrun'
    cases hrun'
    rfl
  obtain ⟨d₀, hd₀, hbody⟩ := Option.map_eq_some_iff.mp hd
  have hpoly : d₀.body.isPolymorphic = true := by
    rw [hbody]
    simpa [DefnBody.isPolymorphic] using hgenerics
  refine ⟨p, c, s'.program, s', j, j', index, index', t, hload, hcheck, hlog, hq, hshares, hu, hu',
    hsource, hne, ?_⟩
  rintro rfl
  exact hne ((hshares.shared hu hu' hsource hd₀ hpoly).mpr ⟨rfl, rfl⟩)

/-- Two names of one top-level definition are used at one instance, but the references lead to
different copies, and so its tail is evaluated twice. -/
theorem shares_not_names : ∃ p c s d j j' index index' t,
    (Program.parse "names" namesText >>= fun p => Compiler.addEntries p ["main"]) = .ok p ∧
    p.check.run ⟨p, .empty⟩ = (.ok (), c) ∧ c.log.entries = [] ∧
    program.run (.start c.program) = .ok ((), s) ∧
    .value j index t ∈ s.program.reachedUses ∧ .value j' index' t ∈ s.program.reachedUses ∧
    s.source j = s.source j' ∧
    (c.program.defns[s.source j]?).map Defn.body = some (.top d) ∧ TwinNames d index index' ∧
    j ≠ j' := by
  obtain ⟨p, c, s, hload, hcheck, hlog, hrun, hparts⟩ := exists_partsNames
  obtain ⟨d, j, j', index, index', t, hparted⟩ := State.exists_of_partsNames hparts
  exact ⟨p, c, s, d, j, j', index, index', t, hload, hcheck, hlog, hrun, hparted⟩

end Mil.Mono
