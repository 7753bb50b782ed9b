import Mil.Proofs.Machine.Trail
import Mil.Proofs.Program.Copy
import Mil.Proofs.Program.Numbering
import Mil.Proofs.Source.Load

/-!
Texts of definitions whose temporaries are renamed. A renaming that keeps different temporaries
different keeps the order in which they are first mentioned, so they have the same numbers afterwards
and the text is the same. Each definition of a program may be renamed in a way of its own.

A copy of a body is the body with its binders renamed to new temporaries, as long as the body binds each
temporary once and reads none before that; so a program has the same text when all its bodies are
replaced by copies. Programs that are loaded are of this kind.
-/

namespace Mil

/-! ### Renamings -/

/-- The operand with its temporary renamed. -/
def Atom.rename (σ : Temp → Temp) : Atom → Atom
  | .temp t => .temp (σ t)
  | a => a

/-- The body with all temporaries renamed, those that it reads and those that it binds. -/
def Code.rename (σ : Temp → Temp) : Code → Code
  | .bind vars tail next => .bind (vars.map σ) (tail.mapAtoms (Atom.rename σ)) (next.rename σ)
  | c => c.mapAtoms (Atom.rename σ)

/-- The definition with all temporaries renamed, parameters and arguments included. -/
def DefnBody.rename (σ : Temp → Temp) : DefnBody → DefnBody
  | .block b => .block { b with params := b.params.map σ, body := b.body.map (Code.rename σ) }
  | .closure k => .closure { k with
      params := k.params.map σ
      args := k.args.map σ
      tail := k.tail.map (Tail.mapAtoms (Atom.rename σ)) }
  | .top t => .top { t with tail := t.tail.map (Tail.mapAtoms (Atom.rename σ)) }
  | .external e => .external e

/-- The definition with all temporaries renamed. -/
def Defn.rename (σ : Temp → Temp) (d : Defn) : Defn := { d with body := d.body.rename σ }

section Rename

variable {σ : Temp → Temp}

theorem Atom.defn?_rename (a : Atom) : (a.rename σ).defn? = a.defn? := by cases a <;> rfl

theorem temps_rename (as : List Atom) :
    (as.map (Atom.rename σ)).filterMap Atom.temp? = (as.filterMap Atom.temp?).map σ := by
  rw [List.filterMap_map, List.map_filterMap]
  congr 1
  funext a
  cases a <;> rfl

theorem Tail.temps_rename (t : Tail) :
    (t.mapAtoms (Atom.rename σ)).atoms.filterMap Atom.temp? = (t.atoms.filterMap Atom.temp?).map σ := by
  rw [atoms_mapAtoms, Mil.temps_rename]

/-- A renamed body mentions the renamed temporaries. -/
theorem Code.mentions_rename (c : Code) : (c.rename σ).mentions = c.mentions.map σ := by
  induction c with
  | bind vars t next ih => rw [rename, mentions, mentions, ih, t.temps_rename, List.map_append, List.map_append]
  | done t => exact t.temps_rename
  | branch cond c d =>
      show ((Code.branch cond c d).mapAtoms _).atoms.filterMap _ = _
      rw [Code.atoms_mapAtoms, temps_rename]
      rfl
  | case scrut alts default =>
      show ((Code.case scrut alts default).mapAtoms _).atoms.filterMap _ = _
      rw [Code.atoms_mapAtoms, temps_rename]
      rfl

theorem DefnBody.mentions_rename (b : DefnBody) : (b.rename σ).mentions = b.mentions.map σ := by
  have htail (t : Option Tail) : ((t.map (Tail.mapAtoms (Atom.rename σ))).map fun t =>
      t.atoms.filterMap Atom.temp?).getD [] = ((t.map fun t => t.atoms.filterMap Atom.temp?).getD []).map σ := by
    cases t with
    | none => rfl
    | some t => exact t.temps_rename
  cases b with
  | block b =>
      have hbody : ((b.body.map (Code.rename σ)).map Code.mentions).getD [] =
          ((b.body.map Code.mentions).getD []).map σ := by
        cases b.body with
        | none => rfl
        | some c => exact c.mentions_rename
      rw [rename, mentions, mentions, hbody, List.map_append]
  | closure k => rw [rename, mentions, mentions, htail, List.map_append, List.map_append]
  | top t => exact htail t.tail
  | external e => rfl

theorem Code.refs_rename (c : Code) : (c.rename σ).refs = c.refs := by
  induction c with
  | bind vars t next ih => rw [rename, refs, refs, ih, t.refs_mapAtoms Atom.defn?_rename]
  | done t => exact Code.refs_mapAtoms Atom.defn?_rename (.done t)
  | branch cond c d => exact Code.refs_mapAtoms Atom.defn?_rename (.branch cond c d)
  | case scrut alts default => exact Code.refs_mapAtoms Atom.defn?_rename (.case scrut alts default)

/-- A renamed definition refers to the same definitions. -/
theorem DefnBody.refs_rename (b : DefnBody) : (b.rename σ).refs = b.refs := by
  have htail (t : Option Tail) :
      ((t.map (Tail.mapAtoms (Atom.rename σ))).map Tail.refs).getD [] = (t.map Tail.refs).getD [] := by
    cases t with
    | none => rfl
    | some t => exact t.refs_mapAtoms Atom.defn?_rename
  cases b with
  | block b =>
      obtain ⟨params, body, declared, defining, generics, failed⟩ := b
      cases body with
      | none => rfl
      | some c => exact c.refs_rename
  | closure k => exact htail k.tail
  | top t => exact htail t.tail
  | external e => rfl

end Rename

/-! ### Numbers of renamed temporaries -/

section Numbers

variable {σ : Temp → Temp} {order ms : List Temp} {t : Temp}

theorem mem_map_of_injOn (hσ : Set.InjOn σ {u | u ∈ order ∨ u = t}) : σ t ∈ order.map σ ↔ t ∈ order := by
  refine ⟨fun h => ?_, List.mem_map_of_mem⟩
  obtain ⟨u, hu, heq⟩ := List.mem_map.mp h
  exact hσ (.inl hu) (.inr rfl) heq ▸ hu

/-- Renaming keeps the order in which temporaries are first mentioned. -/
theorem mention_map (order : List Temp) (hσ : Set.InjOn σ {t | t ∈ order ∨ t ∈ ms}) :
    mention (order.map σ) (ms.map σ) = (mention order ms).map σ := by
  induction ms generalizing order with
  | nil => rfl
  | cons t ms ih =>
      have hmem : σ t ∈ order.map σ ↔ t ∈ order :=
        mem_map_of_injOn (hσ.mono fun u hu => hu.imp_right fun h => h ▸ .head _)
      have hfirst : mention (order.map σ) [σ t] = (mention order [t]).map σ := by
        rw [mention_singleton, mention_singleton]
        by_cases ht : t ∈ order
        · rw [if_pos ht, if_pos (hmem.mpr ht)]
        · rw [if_neg ht, if_neg (hmem.not.mpr ht), List.map_append]
          rfl
      show mention (mention (order.map σ) [σ t]) (ms.map σ) = (mention (mention order [t]) ms).map σ
      rw [hfirst]
      refine ih (mention order [t]) (hσ.mono fun u hu => ?_)
      rcases hu with hu | hu
      · refine (mem_mention.mp hu).imp_right fun h => ?_
        exact List.mem_cons.mpr (.inl (List.mem_singleton.mp h))
      · exact .inr (.tail _ hu)

theorem idxOf_map (hσ : Set.InjOn σ {t | t ∈ order}) (ht : t ∈ order) :
    (order.map σ).idxOf (σ t) = order.idxOf t := by
  induction order with
  | nil => cases ht
  | cons u order ih =>
      by_cases hu : u = t
      · subst hu
        rw [List.map_cons, List.idxOf_cons_self, List.idxOf_cons_self]
      · have hne : σ u ≠ σ t := fun h => hu (hσ (.head _) ht h)
        rw [List.map_cons, List.idxOf_cons_ne _ hne, List.idxOf_cons_ne _ hu,
          ih (hσ.mono fun v hv => .tail _ hv) ((List.mem_cons.mp ht).resolve_left (Ne.symm hu))]

/-- Renamed temporaries have the numbers that the temporaries have. -/
theorem idxOf_mentions_rename {b : DefnBody} (hσ : Set.InjOn σ {t | t ∈ b.mentions}) (ht : t ∈ b.mentions) :
    (b.rename σ).mentions.eraseDups.idxOf (σ t) = b.mentions.eraseDups.idxOf t := by
  rw [b.mentions_rename, eraseDups_eq_mention, eraseDups_eq_mention]
  have hmem : ∀ {u}, u ∈ mention [] b.mentions ↔ u ∈ b.mentions :=
    mem_mention.trans (or_iff_right List.not_mem_nil)
  have hmap : mention [] (b.mentions.map σ) = (mention [] b.mentions).map σ :=
    mention_map [] (hσ.mono fun u hu => hu.resolve_left List.not_mem_nil)
  rw [hmap]
  exact idxOf_map (hσ.mono fun u hu => hmem.mp hu) (hmem.mpr ht)

end Numbers

/-! ### Texts -/

/-- What a program adds to the text of a definition is the same in both: the names that stand for
definitions, and what is known of types. -/
structure Program.SameNames (p p' : Program) : Prop where
  topName : ∀ order order' id index, Printer.topName ⟨p', order'⟩ id index = Printer.topName ⟨p, order⟩ id index
  defnName : ∀ order order' id, Printer.defnName ⟨p', order'⟩ id = Printer.defnName ⟨p, order⟩ id
  store : p'.store = p.store

theorem Program.SameNames.refl (p : Program) : p.SameNames p := ⟨fun _ _ _ _ => rfl, fun _ _ _ => rfl, rfl⟩

/-- Two texts that name definitions alike, and temporaries that are mentioned alike once they are
renamed. -/
structure Printer.Matches (pr pr' : Printer) (σ : Temp → Temp) (ms : List Temp) : Prop where
  temp : ∀ t ∈ ms, pr'.temp (σ t) = pr.temp t
  names : pr.program.SameNames pr'.program

namespace Printer

variable {pr pr' : Printer} {σ : Temp → Temp} {ms : List Temp}

theorem Matches.temps (h : pr.Matches pr' σ ms) {ts : List Temp} (hts : ts ⊆ ms) :
    pr'.temps (ts.map σ) = pr.temps ts := by
  rw [Printer.temps, Printer.temps, List.map_map]
  exact congrArg _ (List.map_congr_left fun t ht => h.temp t (hts ht))

theorem Matches.atom (h : pr.Matches pr' σ ms) {a : Atom} (ha : ∀ t, a.temp? = some t → t ∈ ms) :
    pr'.atom (a.rename σ) = pr.atom a := by
  cases a with
  | temp t => exact h.temp t (ha t rfl)
  | lit l => rfl
  | top id index site => exact congrArg (Option.getD · _) (h.names.topName pr.order pr'.order id index)

theorem Matches.atoms (h : pr.Matches pr' σ ms) {as : List Atom} (has : as.filterMap Atom.temp? ⊆ ms) :
    pr'.atoms (as.map (Atom.rename σ)) = pr.atoms as := by
  rw [Printer.atoms, Printer.atoms, List.map_map]
  exact congrArg _ (List.map_congr_left fun a ha =>
    h.atom fun t ht => has (List.mem_filterMap.mpr ⟨a, ha, ht⟩))

theorem Matches.defnName (h : pr.Matches pr' σ ms) (id : DefnId) : pr'.defnName id = pr.defnName id :=
  h.names.defnName pr.order pr'.order id

theorem Matches.call (h : pr.Matches pr' σ ms) {c : BlockCall} (hc : c.args.filterMap Atom.temp? ⊆ ms) :
    pr'.call (c.mapAtoms (Atom.rename σ)) = pr.call c := by
  rw [Printer.call, Printer.call, BlockCall.mapAtoms, h.defnName, h.atoms hc]

theorem Matches.tail (h : pr.Matches pr' σ ms) {t : Tail} (ht : t.atoms.filterMap Atom.temp? ⊆ ms) :
    pr'.tail (t.mapAtoms (Atom.rename σ)) = pr.tail t := by
  have hmem {a : Atom} (ha : a ∈ t.atoms) (u : Temp) (hu : a.temp? = some u) : u ∈ ms :=
    ht (List.mem_filterMap.mpr ⟨a, ha, hu⟩)
  cases t with
  | ret args =>
      have hargs : pr'.atoms (args.map (Atom.rename σ)) = pr.atoms args := h.atoms ht
      rw [Tail.mapAtoms, Printer.tail, Printer.tail, hargs]
  | call c => exact h.call ht
  | prim q args inst =>
      have hargs : pr'.atoms (args.map (Atom.rename σ)) = pr.atoms args := h.atoms ht
      rw [Tail.mapAtoms, Printer.tail, Printer.tail, hargs]
  | alloc k args inst =>
      have hargs : pr'.atoms (args.map (Atom.rename σ)) = pr.atoms args := h.atoms ht
      rw [Tail.mapAtoms, Printer.tail, Printer.tail, h.defnName, hargs]
  | data k args inst =>
      have hargs : pr'.atoms (args.map (Atom.rename σ)) = pr.atoms args := h.atoms ht
      rw [Tail.mapAtoms, Printer.tail, Printer.tail, hargs]
  | enter fn args =>
      have hargs : args.filterMap Atom.temp? ⊆ ms := fun u hu => by
        obtain ⟨a, ha, hau⟩ := List.mem_filterMap.mp hu
        exact hmem (.tail _ ha) u hau
      rw [Tail.mapAtoms, Printer.tail, Printer.tail, h.atom (hmem (.head _)), h.atoms hargs]
  | sel k field arg inst => rw [Tail.mapAtoms, Printer.tail, Printer.tail, h.atom (hmem (.head _))]

theorem Matches.tail? (h : pr.Matches pr' σ ms) {t : Option Tail}
    (ht : (t.map fun t => t.atoms.filterMap Atom.temp?).getD [] ⊆ ms) :
    pr'.tail? (t.map (Tail.mapAtoms (Atom.rename σ))) = pr.tail? t := by
  cases t with
  | none => rw [Option.map_none, Printer.tail?, Printer.tail?, Option.map_none, Option.map_none]
  | some t => exact h.tail ht

theorem Matches.binders (h : pr.Matches pr' σ ms) {vs : List Temp} (hvs : vs ⊆ ms) :
    pr'.binders (vs.map σ) = pr.binders vs := by
  have hlist := congrArg (fun names => "[" ++ names ++ "]") (h.temps hvs)
  match vs with
  | [v] => exact h.temp v (hvs (.head _))
  | [] => exact hlist
  | v :: w :: vs => exact hlist

/-- The calls of a body come out alike. -/
theorem Matches.call_of_mem (h : pr.Matches pr' σ ms) {c : Code} (hc : c.atoms.filterMap Atom.temp? ⊆ ms)
    {d : BlockCall} (hd : ∀ a ∈ d.args, a ∈ c.atoms) : pr'.call (d.mapAtoms (Atom.rename σ)) = pr.call d := by
  refine h.call fun t ht => ?_
  obtain ⟨a, ha, hat⟩ := List.mem_filterMap.mp ht
  exact hc (List.mem_filterMap.mpr ⟨a, hd a ha, hat⟩)

theorem Matches.code (h : pr.Matches pr' σ ms) {c : Code} (hc : c.mentions ⊆ ms) :
    pr'.code (c.rename σ) = pr.code c := by
  induction c with
  | bind vars t next ih =>
      obtain ⟨hhere, hnext⟩ := List.append_subset.mp hc
      obtain ⟨ht, hvars⟩ := List.append_subset.mp hhere
      rw [Code.rename, Printer.code, Printer.code, h.binders hvars, h.tail ht, ih hnext]
  | done t => exact congrArg (fun text => ["  " ++ text]) (h.tail hc)
  | branch cond c d =>
      have hcond := h.atom (a := cond) fun t ht => hc (List.mem_filterMap.mpr ⟨cond, .head _, ht⟩)
      have htrue := h.call_of_mem hc (d := c) fun a ha => .tail _ (List.mem_append_left _ ha)
      have hfalse := h.call_of_mem hc (d := d) fun a ha => .tail _ (List.mem_append_right _ ha)
      show pr'.code (.branch _ _ _) = _
      rw [Printer.code, Printer.code, hcond, htrue, hfalse]
  | case scrut alts default =>
      have hscrut := h.atom (a := scrut) fun t ht => hc (List.mem_filterMap.mpr ⟨scrut, .head _, ht⟩)
      have hcall (d : BlockCall) (hd : d ∈ (Code.case scrut alts default).calls) :
          pr'.call (d.mapAtoms (Atom.rename σ)) = pr.call d :=
        h.call_of_mem hc fun a ha => .tail _ (List.mem_flatMap.mpr ⟨d, hd, ha⟩)
      have hdefault : ((default.map (·.mapAtoms (Atom.rename σ))).map fun c => "    _ -> " ++ pr'.call c) =
          default.map fun c => "    _ -> " ++ pr.call c := by
        cases default with
        | none => rfl
        | some c =>
            have hmem : c ∈ (Code.case scrut alts (some c)).calls := List.mem_append_right _ (.head _)
            exact congrArg (fun text => some ("    _ -> " ++ text)) (hcall c hmem)
      show pr'.code (.case _ _ _) = _
      rw [Printer.code, Printer.code, hscrut, hdefault, List.map_map]
      refine congrArg (fun lines => _ :: lines ++ _) (List.map_congr_left fun alt ha => ?_)
      have hmem : alt.2 ∈ (Code.case scrut alts default).calls :=
        List.mem_append_left _ (List.mem_map_of_mem ha)
      exact congrArg ("    " ++ alt.1.name ++ " -> " ++ ·) (hcall alt.2 hmem)

theorem Matches.defn {d : Defn} (h : pr.Matches pr' σ d.body.mentions) : pr'.defn (d.rename σ) = pr.defn d := by
  have hstore := h.names.store
  obtain ⟨name, pos, entry, replacedBy, body⟩ := d
  unfold Printer.defn Defn.rename
  dsimp only
  rw [hstore]
  congr 1
  cases body with
  | block b =>
      obtain ⟨hparams, hbody⟩ := List.append_subset.mp (List.Subset.refl (DefnBody.block b).mentions)
      have hcode : ((b.body.map (Code.rename σ)).map pr'.code).getD [] = (b.body.map pr.code).getD [] := by
        cases hb : b.body with
        | none => rw [Option.map_none, Option.map_none, Option.map_none]
        | some c =>
            rw [hb] at hbody
            exact h.code hbody
      dsimp only [DefnBody.rename]
      rw [h.temps hparams, hcode]
  | closure k =>
      obtain ⟨hinputs, htail⟩ := List.append_subset.mp (List.Subset.refl (DefnBody.closure k).mentions)
      obtain ⟨hparams, hargs⟩ := List.append_subset.mp hinputs
      dsimp only [DefnBody.rename]
      rw [h.temps hparams, h.temps hargs, h.tail? htail]
  | top t =>
      dsimp only [DefnBody.rename]
      rw [h.tail? (List.Subset.refl (DefnBody.top t).mentions)]
  | external e => rfl

end Printer

namespace Program

variable {p p' : Program} {σ : Temp → Temp} {d : Defn}

theorem SameNames.printDefn_rename (h : p.SameNames p') (hσ : Set.InjOn σ {t | t ∈ d.body.mentions}) :
    p'.printDefn (d.rename σ) = p.printDefn d := by
  have hmatches : Printer.Matches ⟨p, d.body.mentions.eraseDups⟩ ⟨p', (d.rename σ).body.mentions.eraseDups⟩ σ
      d.body.mentions :=
    ⟨fun t ht => congrArg (fun n => "t" ++ toString n) (idxOf_mentions_rename hσ ht), h⟩
  rw [printDefn, printDefn, hmatches.defn]

/-- The programs differ in the choice of temporaries, which each definition makes for itself. -/
structure Renamed (p p' : Program) : Prop where
  store : p'.store = p.store
  entries : p'.entries = p.entries
  size : p'.defns.size = p.defns.size
  defn : ∀ {id : DefnId} {d : Defn}, p.defns[id]? = some d →
    ∃ σ, Set.InjOn σ {t | t ∈ d.body.mentions} ∧ p'.defns[id]? = some (d.rename σ)

/-- What is there in one program is there in the other. -/
theorem Renamed.cases (h : p.Renamed p') (id : DefnId) : (p.defns[id]? = none ∧ p'.defns[id]? = none) ∨
    ∃ d σ, p.defns[id]? = some d ∧ p'.defns[id]? = some (d.rename σ) ∧
      Set.InjOn σ {t | t ∈ d.body.mentions} := by
  cases hd : p.defns[id]? with
  | none =>
      refine .inl ⟨rfl, Array.getElem?_eq_none_iff.mpr ?_⟩
      exact h.size ▸ Array.getElem?_eq_none_iff.mp hd
  | some d =>
      obtain ⟨σ, hσ, hd'⟩ := h.defn hd
      exact .inr ⟨d, σ, rfl, hd', hσ⟩

theorem Renamed.sameNames (h : p.Renamed p') : p.SameNames p' := by
  refine ⟨fun order order' id index => ?_, fun order order' id => ?_, h.store⟩
  · unfold Printer.topName
    rcases h.cases id with ⟨hd, hd'⟩ | ⟨d, σ, hd, hd', -⟩
    · rw [hd, hd']
    · rw [hd, hd']
      obtain ⟨name, pos, entry, replacedBy, body⟩ := d
      cases body <;> rfl
  · unfold Printer.defnName
    rcases h.cases id with ⟨hd, hd'⟩ | ⟨d, σ, hd, hd', -⟩
    · rw [hd, hd']
    · rw [hd, hd']
      rfl

theorem Renamed.dependencies (h : p.Renamed p') : p'.dependencies = p.dependencies := by
  funext id
  unfold Program.dependencies
  rcases h.cases id with ⟨hd, hd'⟩ | ⟨d, σ, hd, hd', -⟩
  · rw [hd, hd']
  · rw [hd, hd', Option.map_some, Option.map_some, DefnBody.dependencies, Defn.rename, DefnBody.refs_rename]
    rfl

/-- The text of a program does not depend on the choice of temporaries. -/
theorem Renamed.print (h : p.Renamed p') : p'.print = p.print := by
  have hall : p'.all = p.all := congrArg List.range h.size
  have hreachable : p'.reachable = p.reachable := by
    rw [reachable, reachable, reachableFrom, reachableFrom, hall, h.entries, h.size, h.dependencies]
  have hdefn : (fun id : DefnId => (p'.defns[id]?).map p'.printDefn) =
      fun id : DefnId => (p.defns[id]?).map p.printDefn := by
    funext id
    rcases h.cases id with ⟨hd, hd'⟩ | ⟨d, σ, hd, hd', hσ⟩
    · rw [hd, hd', Option.map_none, Option.map_none]
    · rw [hd, hd', Option.map_some, Option.map_some, h.sameNames.printDefn_rename hσ]
  rw [Program.print, Program.print, hall, hreachable, h.entries, hdefn]

end Program

/-! ### Copies as renamings -/

/-- The body reads no temporary before it binds it. -/
def Code.BindsFirst : Code → Prop
  | .bind vars tail next => (∀ v ∈ vars ++ next.binders, .temp v ∉ tail.atoms) ∧ next.BindsFirst
  | _ => True

section Copy

variable {σ : Temp → Temp} {ρ : Replacement} {temps : TempTypes}

theorem atom_extend {vs : List Temp} {t : Temp} (h : t ∈ vs ∨ ρ.atom (.temp t) = .temp (σ t)) :
    (ρ.extend vs ((vs.map σ).map .temp)).atom (.temp t) = .temp (σ t) := by
  induction vs generalizing ρ with
  | nil => exact h.resolve_left List.not_mem_nil
  | cons v vs ih =>
      rw [List.map_cons, List.map_cons, Replacement.extend_cons]
      refine ih ?_
      by_cases hv : t = v
      · subst hv
        right
        rw [Replacement.atom, List.lookup_cons_self]
        rfl
      · refine h.imp (fun ht => (List.mem_cons.mp ht).resolve_left hv) fun ht => ?_
        rw [Replacement.atom, lookup_cons_ite, if_neg hv]
        exact ht

theorem Tail.mapAtoms_congr {f g : Atom → Atom} {t : Tail} (h : ∀ a ∈ t.atoms, f a = g a) :
    t.mapAtoms f = t.mapAtoms g := by
  cases t with
  | ret args => exact congrArg Tail.ret (List.map_congr_left h)
  | call c => exact congrArg (fun args => Tail.call ⟨c.block, args, c.inst⟩) (List.map_congr_left h)
  | prim q args inst => exact congrArg (Tail.prim q · inst) (List.map_congr_left h)
  | alloc k args inst => exact congrArg (Tail.alloc k · inst) (List.map_congr_left h)
  | data k args inst => exact congrArg (Tail.data k · inst) (List.map_congr_left h)
  | enter fn args =>
      exact congrArg₂ Tail.enter (h fn (.head _)) (List.map_congr_left fun a ha => h a (.tail _ ha))
  | sel k field arg inst => exact congrArg (Tail.sel k field · inst) (h arg (.head _))

/-- A copy is the body under a renaming that gives each binder the number of its turn and agrees with
what is replaced already. -/
theorem Code.copy_eq_rename {c : Code} (hfirst : c.BindsFirst)
    (hρ : ∀ t ∉ c.binders, ρ.atom (.temp t) = .temp (σ t))
    (hσ : c.binders.map σ = List.range' temps.size c.binders.length) :
    (c.copy ρ temps).1 = c.rename σ := by
  have hend {ρ : Replacement} (hρ : ∀ t, ρ.atom (.temp t) = .temp (σ t)) : ρ.atom = Atom.rename σ := by
    funext a
    cases a with
    | temp t => exact hρ t
    | lit l => rfl
    | top id index site => rfl
  induction c generalizing ρ temps with
  | bind vars t next ih =>
      obtain ⟨hsize, hfresh⟩ := freshLike_spec temps vars
      rw [binders, List.map_append, List.length_append, ← List.range'_append_1] at hσ
      obtain ⟨hvars, hnext⟩ := List.append_inj hσ (by rw [List.length_map, List.length_range'])
      have htail : t.mapAtoms ρ.atom = t.mapAtoms (Atom.rename σ) := by
        refine Tail.mapAtoms_congr fun a ha => ?_
        cases a with
        | temp u => exact hρ u fun hu => hfirst.1 u hu ha
        | lit l => rfl
        | top id index site => rfl
      have hrest : (next.copy (ρ.extend vars ((vars.map σ).map .temp)) (temps.freshLike vars).2).1 =
          next.rename σ := by
        refine ih hfirst.2 (fun u hu => atom_extend ?_) (by rw [hnext, hsize])
        exact (em (u ∈ vars)).imp_right fun hv => hρ u fun hmem => (List.mem_append.mp hmem).elim hv hu
      unfold copy
      dsimp only
      rw [rename, htail, hfresh, ← hvars, hrest]
  | done t => exact congrArg (Code.done t).mapAtoms (hend fun t => hρ t List.not_mem_nil)
  | branch cond c d => exact congrArg (Code.branch cond c d).mapAtoms (hend fun t => hρ t List.not_mem_nil)
  | case scrut alts default =>
      exact congrArg (Code.case scrut alts default).mapAtoms (hend fun t => hρ t List.not_mem_nil)

/-- Numbers from `n` on for the temporaries of a list, by their places in it. -/
def numberFrom (n : Nat) (vs : List Temp) (t : Temp) : Temp := if t ∈ vs then n + vs.idxOf t else t

theorem numberFrom_of_notMem {n : Nat} {vs : List Temp} {t : Temp} (h : t ∉ vs) : numberFrom n vs t = t := if_neg h

theorem map_numberFrom (n : Nat) {vs : List Temp} (h : vs.Nodup) :
    vs.map (numberFrom n vs) = List.range' n vs.length := by
  refine List.ext_getElem (by rw [List.length_map, List.length_range']) fun i hi _ => ?_
  rw [List.length_map] at hi
  rw [List.getElem_map, List.getElem_range', numberFrom, if_pos (List.getElem_mem hi), h.idxOf_getElem i hi,
    Nat.one_mul]

/-- Numbers that are not in use keep temporaries apart. -/
theorem injOn_numberFrom {n : Nat} {vs : List Temp} {s : Set Temp} (hs : ∀ t ∈ s, t < n) :
    Set.InjOn (numberFrom n vs) s := by
  intro t ht u hu heq
  have hlt := hs t ht
  have hlt' := hs u hu
  unfold numberFrom at heq
  by_cases hmem : t ∈ vs
  · by_cases hmem' : u ∈ vs
    · rw [if_pos hmem, if_pos hmem'] at heq
      exact (List.idxOf_inj hmem).mp (Nat.add_left_cancel heq)
    · rw [if_pos hmem, if_neg hmem'] at heq
      exact absurd (heq ▸ Nat.le_add_right n (vs.idxOf t)) (Nat.not_le.mpr hlt')
  · by_cases hmem' : u ∈ vs
    · rw [if_neg hmem, if_pos hmem'] at heq
      exact absurd (heq ▸ Nat.le_add_right n (vs.idxOf u)) (Nat.not_le.mpr hlt)
    · rwa [if_neg hmem, if_neg hmem'] at heq

end Copy

/-! ### Programs with copied bodies -/

/-- The definition with its body copied, and the temporaries that there are afterwards. -/
def DefnBody.copy (temps : TempTypes) : DefnBody → DefnBody × TempTypes
  | .block b =>
    match b.body with
    | some c => (.block { b with body := some (c.copy [] temps).1 }, (c.copy [] temps).2)
    | none => (.block b, temps)
  | .closure k => (.closure { k with tail := k.tail.map (Tail.mapAtoms (Replacement.atom [])) }, temps)
  | .top t => (.top { t with tail := t.tail.map (Tail.mapAtoms (Replacement.atom [])) }, temps)
  | .external e => (.external e, temps)

/-- Copies the bodies of definitions one after the other. -/
def Defn.copyAll (temps : TempTypes) : List Defn → List Defn × TempTypes
  | [] => ([], temps)
  | d :: ds =>
    let (body, temps) := d.body.copy temps
    let (ds, temps) := copyAll temps ds
    ({ d with body } :: ds, temps)

/-- The program with every body replaced by a copy. -/
def Program.copyBodies (p : Program) : Program :=
  let (ds, temps) := Defn.copyAll p.temps p.defns.toList
  { p with defns := ds.toArray, temps }

/-- Blocks bind each temporary once and read none before that, and all temporaries have been made. -/
structure Program.Orderly (p : Program) : Prop where
  distinct : p.DistinctBinders
  bindsFirst : ∀ {id : DefnId} {b : Block}, p.block id = .ok b → ∀ c, b.body = some c → c.BindsFirst
  made : ∀ {id : DefnId} {d : Defn}, p.defns[id]? = some d → ∀ t ∈ d.body.mentions, t < p.temps.size

section Programs

variable {p : Program} {temps : TempTypes}

theorem Replacement.atom_nil : Replacement.atom [] = id := by
  funext a
  cases a <;> rfl

theorem Atom.rename_id : Atom.rename id = id := by
  funext a
  cases a <;> rfl

theorem le_size_copyBody (b : DefnBody) (temps : TempTypes) : temps.size ≤ (b.copy temps).2.size := by
  cases b with
  | block b =>
      unfold DefnBody.copy
      dsimp only
      split
      · exact le_size_copy _ _ _
      · exact Nat.le_refl _
  | closure k => exact Nat.le_refl _
  | top t => exact Nat.le_refl _
  | external e => exact Nat.le_refl _

theorem length_copyAll (ds : List Defn) (temps : TempTypes) : (Defn.copyAll temps ds).1.length = ds.length := by
  induction ds generalizing temps with
  | nil => rfl
  | cons d ds ih => exact congrArg (· + 1) (ih _)

/-- Each definition is copied when at least the temporaries of the start have been made. -/
theorem exists_getElem?_copyAll {ds : List Defn} {i : Nat} {d : Defn} (hd : ds[i]? = some d) (temps : TempTypes) :
    ∃ temps' : TempTypes, temps.size ≤ temps'.size ∧
      (Defn.copyAll temps ds).1[i]? = some { d with body := (d.body.copy temps').1 } := by
  induction ds generalizing i temps with
  | nil => cases hd
  | cons e ds ih =>
      cases i with
      | zero =>
          cases hd
          exact ⟨temps, Nat.le_refl _, rfl⟩
      | succ i =>
          obtain ⟨temps', hle, hcopied⟩ := ih (i := i) hd (e.body.copy temps).2
          exact ⟨temps', Nat.le_trans (le_size_copyBody e.body temps) hle, hcopied⟩

/-- A copied definition is the definition under a renaming. -/
theorem exists_rename_copy {b : DefnBody}
    (hblock : ∀ a c, b = .block a → a.body = some c → (a.params ++ c.binders).Nodup ∧ c.BindsFirst)
    (hmade : ∀ t ∈ b.mentions, t < temps.size) :
    ∃ σ, Set.InjOn σ {t | t ∈ b.mentions} ∧ (b.copy temps).1 = b.rename σ := by
  have hid : Set.InjOn id {t | t ∈ b.mentions} := Function.injective_id.injOn
  cases b with
  | block a =>
      obtain ⟨params, body, declared, defining, generics, failed⟩ := a
      cases body with
      | none =>
          refine ⟨id, hid, ?_⟩
          rw [DefnBody.rename, List.map_id]
          rfl
      | some c =>
          obtain ⟨hnodup, hfirst⟩ := hblock _ c rfl rfl
          obtain ⟨-, hbinders, hapart⟩ := List.nodup_append.mp hnodup
          refine ⟨numberFrom temps.size c.binders, injOn_numberFrom hmade, ?_⟩
          have hcopy : (c.copy [] temps).1 = c.rename (numberFrom temps.size c.binders) :=
            Code.copy_eq_rename hfirst (fun t ht => congrArg Atom.temp (numberFrom_of_notMem ht).symm)
              (map_numberFrom temps.size hbinders)
          have hparams : params.map (numberFrom temps.size c.binders) = params := by
            refine (List.map_congr_left fun t ht => ?_).trans (List.map_id _)
            exact numberFrom_of_notMem fun hmem => hapart t ht t hmem rfl
          rw [DefnBody.rename, hparams, Option.map_some, ← hcopy]
          rfl
  | closure k =>
      refine ⟨id, hid, ?_⟩
      rw [DefnBody.copy, DefnBody.rename, Replacement.atom_nil, Atom.rename_id, List.map_id, List.map_id]
  | top t =>
      refine ⟨id, hid, ?_⟩
      rw [DefnBody.copy, DefnBody.rename, Replacement.atom_nil, Atom.rename_id]
  | external e => exact ⟨id, hid, rfl⟩

theorem Program.block_of_body {id : DefnId} {d : Defn} {b : Block} (hd : p.defns[id]? = some d)
    (hb : d.body = .block b) : p.block id = .ok b := by
  unfold Program.block Program.defn
  rw [hd]
  dsimp only [bind, Except.bind]
  rw [hb]
  rfl

/-- Copying bodies renames temporaries, definition by definition. -/
theorem Program.Orderly.renamed (h : p.Orderly) : p.Renamed p.copyBodies := by
  refine ⟨rfl, rfl, ?_, fun {id d} hd => ?_⟩
  · exact List.size_toArray.trans ((length_copyAll _ _).trans Array.length_toList)
  · have hblock (a : Block) (c : Code) (ha : d.body = .block a) (hc : a.body = some c) :
        (a.params ++ c.binders).Nodup ∧ c.BindsFirst := by
      have hfound := block_of_body hd ha
      have hnodup := h.distinct id a hfound
      rw [hc] at hnodup
      exact ⟨hnodup, h.bindsFirst hfound c hc⟩
    obtain ⟨temps, hle, hcopied⟩ := exists_getElem?_copyAll (Array.getElem?_toList.trans hd) p.temps
    obtain ⟨σ, hσ, hcopy⟩ := exists_rename_copy hblock fun t ht => Nat.lt_of_lt_of_le (h.made hd t ht) hle
    refine ⟨σ, hσ, ?_⟩
    rw [Defn.rename, ← hcopy, ← hcopied]
    exact List.getElem?_toArray

end Programs

/-! ### Programs that are loaded -/

theorem Code.Formed.bindsFirst {E : Env} {T : PrimTable} {scope : List Temp} {c : Code} (h : c.Formed E T scope)
    (hsingle : (scope ++ c.binders).Nodup) : c.BindsFirst := by
  induction c generalizing scope with
  | bind vars t next ih =>
      refine ⟨fun v hv hmem => ?_, ih h.2 ?_⟩
      · exact (List.nodup_append.mp hsingle).2.2 v (h.1.scope v hmem) v hv rfl
      · refine List.Perm.nodup ?_ hsingle
        rw [Code.binders, ← List.append_assoc]
        exact List.perm_append_comm.append_right _
  | done t => trivial
  | branch cond c d => trivial
  | case scrut alts default => trivial

/-- A body mentions what it binds and what it reads. -/
theorem Code.mem_mentions {c : Code} {t : Temp} (h : t ∈ c.mentions) :
    t ∈ c.binders ∨ t ∈ c.atoms.filterMap Atom.temp? := by
  induction c with
  | bind vars tail next ih =>
      rw [Code.atoms, List.filterMap_append]
      rcases List.mem_append.mp h with h | h
      · rcases List.mem_append.mp h with h | h
        · exact .inr (List.mem_append_left _ h)
        · exact .inl (List.mem_append_left _ h)
      · exact (ih h).imp (List.mem_append_right _) (List.mem_append_right _)
  | done tail => exact .inr h
  | branch cond c d => exact .inr h
  | case scrut alts default => exact .inr h

theorem DefnBody.mentions_subset_temps (b : DefnBody) : b.mentions ⊆ b.temps := by
  have htail (t : Option Tail) : (t.map fun t => t.atoms.filterMap Atom.temp?).getD [] =
      ((t.map Tail.atoms).getD []).filterMap Atom.temp? := by
    cases t <;> rfl
  intro t ht
  cases b with
  | block a =>
      obtain ⟨params, body, declared, defining, generics, failed⟩ := a
      rcases List.mem_append.mp ht with ht | ht
      · exact List.mem_append_left _ (List.mem_append_left _ ht)
      · cases body with
        | none => cases ht
        | some c =>
            rcases Code.mem_mentions ht with ht | ht
            · exact List.mem_append_left _ (List.mem_append_right _ ht)
            · exact List.mem_append_right _ ht
  | closure k =>
      rcases List.mem_append.mp ht with ht | ht
      · exact List.mem_append_left _ (List.mem_append_left _ ht)
      · exact List.mem_append_right _ (htail k.tail ▸ ht)
  | top a => exact List.mem_append_right _ (htail a.tail ▸ ht)
  | external e => cases ht

/-- Loading makes the temporaries of each definition anew and puts them in scope where they are bound. -/
theorem Source.Loaded.orderly {p : Program} (h : Source.Loaded p) : p.Orderly := by
  have hsingle {id : DefnId} {b : Block} (hb : p.block id = .ok b) :
      (b.params ++ (b.body.map Code.binders).getD []).Nodup ∧
        ∀ c, b.body = some c → c.Formed p.env p.prims b.params := by
    obtain ⟨d, hd, hbody⟩ := exists_of_block hb
    have hloaded := h.body hd
    rw [hbody] at hloaded
    exact ⟨hloaded.single, hloaded.formed⟩
  refine ⟨fun id b hb => (hsingle hb).1, fun {id b} hb c hc => ?_, fun {id d} hd t ht => ?_⟩
  · obtain ⟨hnodup, hformed⟩ := hsingle hb
    rw [hc] at hnodup
    exact (hformed c hc).bindsFirst hnodup
  · exact h.temps_room hd t (d.body.mentions_subset_temps ht)

namespace Program

/-- The text of a definition does not depend on which temporaries were chosen. Numbers that are given out
while it is written are the numbers of first mentions, and these stay under every renaming that keeps the
temporaries of the definition apart. So programs that differ in the choice of temporaries have the same
text. An orderly program is such a program beside the one with all its bodies copied, and every program
that a text describes is orderly. -/
theorem print_independent :
    (∀ (p : Program) (d : Defn), Writing.defn p d = p.printDefn d) ∧
    (∀ (p : Program) (d : Defn) (σ : Temp → Temp), Set.InjOn σ {t | t ∈ d.body.mentions} →
      p.printDefn (d.rename σ) = p.printDefn d) ∧
    (∀ p p' : Program, p.Renamed p' → p'.print = p.print) ∧
    (∀ p : Program, p.Orderly → p.copyBodies.print = p.print) ∧
    ∀ (file text : String) (names : List String) (p : Program),
      (Program.parse file text >>= fun p => Compiler.addEntries p names) = .ok p → p.copyBodies.print = p.print :=
  ⟨Writing.defn_eq_printDefn, fun p _ _ hσ => (SameNames.refl p).printDefn_rename hσ, fun _ _ h => h.print,
    fun _ h => h.renamed.print, fun _ _ _ _ h => (Source.loaded_of_parse h).orderly.renamed.print⟩

/-- A block that binds what its parameter holds a second time. -/
def echo : Defn := .new "f" .unknown (.block (.new [0]
  (some (.bind [1] (.ret [.temp 0]) (.done (.ret [.temp 1, .temp 0]))))))

/-- A program with this block alone. -/
def echoOnly : Program := { Program.empty with defns := #[echo], temps := #[none, none] }

/-- A text of such a program. -/
def echoText : String :=
  "blocks:\n- name: f\n  params: [x]\n  code:\n  - bind: [y]\n    return: [x]\n  - return: [y, x]\n"

theorem echoOnly_defns {id : DefnId} {d : Defn} (h : echoOnly.defns[id]? = some d) : d = echo ∧ id = 0 := by
  cases id with
  | zero => exact ⟨(Option.some.inj h).symm, rfl⟩
  | succ id => cases h

theorem injOn_echo : Set.InjOn (fun t : Temp => 1 - t) {t | t ∈ echo.body.mentions} := by
  have hinj : ∀ t ∈ echo.body.mentions, ∀ u ∈ echo.body.mentions, 1 - t = 1 - u → t = u := by decide
  exact fun t ht u hu heq => hinj t ht u hu heq

/-- The temporaries of the block change places, and its body is copied. -/
theorem print_independent_echo :
    Set.InjOn (fun t : Temp => 1 - t) {t | t ∈ echo.body.mentions} ∧
    echoOnly.printDefn (echo.rename fun t => 1 - t) = echoOnly.printDefn echo ∧
    echoOnly.Renamed { echoOnly with defns := #[echo.rename fun t => 1 - t] } ∧
    Program.print { echoOnly with defns := #[echo.rename fun t => 1 - t] } = echoOnly.print ∧
    echoOnly.Orderly ∧ echoOnly.copyBodies.print = echoOnly.print ∧
    ∃ p, (Program.parse "echo" echoText >>= fun p => Compiler.addEntries p ["f"]) = .ok p ∧
      p.copyBodies.print = p.print := by
  obtain ⟨-, hdefn, hrenamed, horderly, hparsed⟩ := print_independent
  have hren : echoOnly.Renamed { echoOnly with defns := #[echo.rename fun t => 1 - t] } := by
    refine ⟨rfl, rfl, rfl, fun {id d} hd => ?_⟩
    obtain ⟨rfl, rfl⟩ := echoOnly_defns hd
    exact ⟨_, injOn_echo, rfl⟩
  have hord : echoOnly.Orderly := by
    refine ⟨fun id b hb => ?_, fun {id b} hb c hc => ?_, fun {id d} hd => ?_⟩
    · obtain ⟨d, hd, hbody⟩ := exists_of_block hb
      obtain ⟨rfl, rfl⟩ := echoOnly_defns hd
      cases hbody
      decide
    · obtain ⟨d, hd, hbody⟩ := exists_of_block hb
      obtain ⟨rfl, rfl⟩ := echoOnly_defns hd
      cases hbody
      cases hc
      exact ⟨by decide, trivial⟩
    · obtain ⟨rfl, rfl⟩ := echoOnly_defns hd
      decide
  have hread : (Program.parse "echo" echoText >>= fun p => Compiler.addEntries p ["f"]).toOption.isSome := by
    rw [Source.parse_eq _ echoText String.toList_ofList]
    decide +kernel
  refine ⟨injOn_echo, hdefn _ _ _ injOn_echo, hren, hrenamed _ _ hren, hord, horderly _ hord, ?_⟩
  cases hp : Program.parse "echo" echoText >>= fun p => Compiler.addEntries p ["f"] with
  | error f =>
      rw [hp] at hread
      cases hread
  | ok p => exact ⟨p, rfl, hparsed _ _ _ p hp⟩

end Program

end Mil
