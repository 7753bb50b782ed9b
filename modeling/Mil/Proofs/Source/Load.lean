import Mil.Compiler
import Mil.Proofs.Program.Names
import Mil.Proofs.Source.Body

/-!
Programs as they are loaded. Every step of loading keeps the program ready to be checked: declared
types are closed, no working type and no type of a temporary or place is known, definitions have
temporaries and places of their own, and the table of names is that of the names they bind.
-/

namespace Mil

namespace Source

open Typing (Layout Inv FreshStage)

/-- A body that was loaded. -/
structure BodyLoaded (E : Env) (T : PrimTable) (b : DefnBody) : Prop where
  declared : ∀ i ∈ b.interfaces, i.DeclaredClosed
  working : ∀ i ∈ b.interfaces, i.working = none
  single : (b.inputs ++ b.binders).Nodup
  sites : (sitesOf b.atoms).Nodup
  signatures : b.SignaturesClosed
  formed : b.Formed E T
  failed : b.failed = false

/-- A program that is ready to be checked. -/
structure Loaded (p : Program) : Prop where
  env : p.env.Closed
  prims : p.prims.Closed
  store : p.store = .empty
  temps_blank : ∀ t, p.temps.typeOf t = none
  sites_blank : ∀ x : Nat, x < p.sites.size → p.sites[x]? = some none
  body : ∀ {id : DefnId} {d : Defn}, p.defns[id]? = some d → BodyLoaded p.env p.prims d.body
  whole : ∀ {id : DefnId} {d : Defn}, p.defns[id]? = some d → d.replacedBy = none
  temps_room : ∀ {id : DefnId} {d : Defn}, p.defns[id]? = some d →
    ∀ t ∈ d.body.temps, t < p.temps.size
  sites_room : ∀ {id : DefnId} {d : Defn}, p.defns[id]? = some d →
    ∀ x ∈ sitesOf d.body.atoms, x < p.sites.size
  temps_apart : ∀ {i j : DefnId} {d d' : Defn}, p.defns[i]? = some d → p.defns[j]? = some d' →
    ∀ t ∈ d.body.temps, t ∈ d'.body.temps → i = j
  sites_apart : ∀ {i j : DefnId} {d d' : Defn}, p.defns[i]? = some d → p.defns[j]? = some d' →
    ∀ x ∈ sitesOf d.body.atoms, x ∈ sitesOf d'.body.atoms → i = j
  named : p.Named

section Loaded

variable {p p' : Program}

/-- A loaded program meets the invariant of the check, with all definitions untouched. -/
theorem Loaded.inv (h : Loaded p) :
    Inv p.defns.size p.store.cells.size p.store.cells.size p fun _ => .fresh := by
  refine ⟨rfl, ?_, ⟨h.temps_apart, h.sites_apart, h.temps_room, fun hd => (h.body hd).single.of_append_left,
    h.env.regular, fun hd => (h.body hd).formed, h.whole⟩, ?_⟩
  · rw [h.store]
    exact Store.regular_empty
  · intro id d hd
    have hb := h.body hd
    exact ⟨hb.declared, hb.working, fun t _ => h.temps_blank t,
      ⟨hb.sites, fun x hx => h.sites_blank x (h.sites_room hd x hx)⟩, hb.signatures, hb.failed⟩

theorem Loaded.ready (h : Loaded p) (base : Nat) : Ready base [] p :=
  ⟨h.env, h.prims, fun _ hq => (nomatch hq)⟩

theorem Loaded.grows (h : Loaded p) (hg : Grows p p') : Loaded p' where
  env := hg.env ▸ h.env
  prims := hg.prims ▸ h.prims
  store := hg.store.trans h.store
  temps_blank := hg.temps_blank h.temps_blank
  sites_blank := hg.sites_blank h.sites_blank
  body hd := hg.env.symm ▸ hg.prims.symm ▸ h.body (hg.defns ▸ hd)
  whole hd := h.whole (hg.defns ▸ hd)
  temps_room hd t ht := Nat.lt_of_lt_of_le (h.temps_room (hg.defns ▸ hd) t ht) hg.temps_le
  sites_room hd x hx := Nat.lt_of_lt_of_le (h.sites_room (hg.defns ▸ hd) x hx) hg.sites_le
  temps_apart hi hj := h.temps_apart (hg.defns ▸ hi) (hg.defns ▸ hj)
  sites_apart hi hj := h.sites_apart (hg.defns ▸ hi) (hg.defns ▸ hj)
  named := h.named.congr hg.names (by rw [Program.boundNames, Program.boundNames, hg.defns])

/-- Before there are definitions, the environment and the primitives may change. -/
theorem Loaded.withTables (h : Loaded p) (hnone : p.defns = #[]) {env : Env} {prims : PrimTable}
    (henv : env.Closed) (hprims : prims.Closed) : Loaded { p with env, prims } where
  env := henv
  prims := hprims
  store := h.store
  temps_blank := h.temps_blank
  sites_blank := h.sites_blank
  body hd := by simp [hnone] at hd
  whole := h.whole
  temps_room := h.temps_room
  sites_room := h.sites_room
  temps_apart := h.temps_apart
  sites_apart := h.sites_apart
  named := h.named.congr rfl rfl

/-- Marks on definitions and the list of entrypoints play no part. -/
theorem Loaded.congr (h : Loaded p) (henv : p'.env = p.env) (hprims : p'.prims = p.prims)
    (hstore : p'.store = p.store) (htemps : p'.temps = p.temps) (hsites : p'.sites = p.sites)
    (hnamed : p'.Named)
    (hdefns : ∀ {id : DefnId} {d' : Defn}, p'.defns[id]? = some d' →
      ∃ d, p.defns[id]? = some d ∧ d.body = d'.body ∧ d.replacedBy = d'.replacedBy) :
    Loaded p' := by
  refine ⟨henv ▸ h.env, hprims ▸ h.prims, hstore.trans h.store, htemps ▸ h.temps_blank,
    hsites ▸ h.sites_blank, fun hd => ?_, fun hd => ?_, fun hd => ?_, fun hd => ?_,
    fun hi hj => ?_, fun hi hj => ?_, hnamed⟩
  · obtain ⟨d, hd, hb, -⟩ := hdefns hd
    exact henv ▸ hprims ▸ hb ▸ h.body hd
  · obtain ⟨d, hd, -, hwhole⟩ := hdefns hd
    exact hwhole ▸ h.whole hd
  · obtain ⟨d, hd, hb, -⟩ := hdefns hd
    exact htemps ▸ hb ▸ h.temps_room hd
  · obtain ⟨d, hd, hb, -⟩ := hdefns hd
    exact hsites ▸ hb ▸ h.sites_room hd
  · obtain ⟨d, hd, hb, -⟩ := hdefns hi
    obtain ⟨e, he, hb', -⟩ := hdefns hj
    exact hb ▸ hb' ▸ h.temps_apart hd he
  · obtain ⟨d, hd, hb, -⟩ := hdefns hi
    obtain ⟨e, he, hb', -⟩ := hdefns hj
    exact hb ▸ hb' ▸ h.sites_apart hd he

theorem Loaded.addEntry (h : Loaded p) (id : DefnId) : Loaded (p.addEntry id) := by
  have hmark : Loaded (p.modify id fun d => { d with entry := true }) := by
    refine h.congr rfl rfl rfl rfl rfl (h.named.modify fun _ => rfl) fun {j d'} hd' => ?_
    rw [Program.modify, Array.getElem?_modify] at hd'
    split at hd'
    · obtain ⟨d, hd, rfl⟩ := Option.map_eq_some_iff.mp hd'
      exact ⟨d, hd, rfl, rfl⟩
    · exact ⟨d', hd', rfl, rfl⟩
  unfold Program.addEntry
  dsimp only
  split
  · exact hmark
  · exact hmark.congr rfl rfl rfl rfl rfl (hmark.named.congr rfl rfl)
      fun hd => ⟨_, hd, rfl, rfl⟩

/-- A new definition whose parameters and body are still missing. -/
theorem Loaded.push (h : Loaded p) {d : Defn} (hb : BodyLoaded p.env p.prims d.body)
    (hwhole : d.replacedBy = none) (htemps : d.body.temps = []) (hatoms : d.body.atoms = [])
    {names : List (String × DefnId)}
    (hnamed : Program.Named { p with defns := p.defns.push d, names }) :
    Loaded { p with defns := p.defns.push d, names } := by
  have hold : ∀ {id : DefnId} {e : Defn}, (p.defns.push d)[id]? = some e →
      p.defns[id]? = some e ∨ e = d := by
    intro id e he
    rw [Array.getElem?_push] at he
    split at he
    · exact .inr (Option.some.inj he).symm
    · exact .inl he
  refine ⟨h.env, h.prims, h.store, h.temps_blank, h.sites_blank, fun he => ?_, fun he => ?_,
    fun he => ?_, fun he => ?_, fun hi hj => ?_, fun hi hj => ?_, hnamed⟩
  · rcases hold he with he | rfl
    · exact h.body he
    · exact hb
  · rcases hold he with he | rfl
    · exact h.whole he
    · exact hwhole
  · rcases hold he with he | rfl
    · exact h.temps_room he
    · rw [htemps]
      exact fun _ ht => (nomatch ht)
  · rcases hold he with he | rfl
    · exact h.sites_room he
    · rw [hatoms]
      exact fun _ hx => (nomatch hx)
  · rcases hold hi with hi | rfl
    · rcases hold hj with hj | rfl
      · exact h.temps_apart hi hj
      · rw [htemps]
        exact fun _ _ ht => (nomatch ht)
    · rw [htemps]
      exact fun _ ht => (nomatch ht)
  · rcases hold hi with hi | rfl
    · rcases hold hj with hj | rfl
      · exact h.sites_apart hi hj
      · rw [hatoms]
        exact fun _ _ hx => (nomatch hx)
    · rw [hatoms]
      exact fun _ hx => (nomatch hx)

/-- A body whose temporaries and places were made for it takes the place of the old one. -/
theorem Loaded.setBody (h : Loaded p) (hg : Grows p p') {id : DefnId} {d : Defn} {body : DefnBody}
    (hd : p'.defns[id]? = some d) (hnames : Defn.boundNames { d with body } = d.boundNames)
    (hb : BodyLoaded p.env p.prims body)
    (htemps : ∀ t ∈ body.temps, p.temps.size ≤ t ∧ t < p'.temps.size)
    (hsites : ∀ x ∈ sitesOf body.atoms, p.sites.size ≤ x ∧ x < p'.sites.size) :
    Loaded (p'.setBody id body) := by
  have h' := h.grows hg
  have hold : ∀ {j : DefnId} {e : Defn}, (p'.setBody id body).defns[j]? = some e →
      (id = j ∧ e.body = body) ∨ p.defns[j]? = some e := by
    intro j e he
    rw [p'.getElem?_setBody] at he
    split at he
    · rename_i hj
      obtain ⟨d, -, rfl⟩ := Option.map_eq_some_iff.mp he
      exact .inl ⟨hj, rfl⟩
    · exact .inr (hg.defns ▸ he)
  refine ⟨h'.env, h'.prims, h'.store, h'.temps_blank, h'.sites_blank, fun he => ?_, fun he => ?_,
    fun he t ht => ?_, fun he x hx => ?_, fun hi hj t ht ht' => ?_, fun hi hj x hx hx' => ?_,
    h'.named.modify fun he => Option.some.inj (hd.symm.trans he) ▸ hnames⟩
  · show BodyLoaded p'.env p'.prims _
    rw [hg.env, hg.prims]
    rcases hold he with ⟨-, he⟩ | he
    · exact he ▸ hb
    · exact h.body he
  · rw [p'.getElem?_setBody] at he
    split at he
    · obtain ⟨d, hd, rfl⟩ := Option.map_eq_some_iff.mp he
      have hwhole : d.replacedBy = none := h'.whole hd
      exact hwhole
    · exact h'.whole he
  · rcases hold he with ⟨-, he⟩ | he
    · exact (htemps t (he ▸ ht)).2
    · exact Nat.lt_of_lt_of_le (h.temps_room he t ht) hg.temps_le
  · rcases hold he with ⟨-, he⟩ | he
    · exact (hsites x (he ▸ hx)).2
    · exact Nat.lt_of_lt_of_le (h.sites_room he x hx) hg.sites_le
  · rcases hold hi with ⟨rfl, hb₁⟩ | hi
    · rcases hold hj with ⟨rfl, -⟩ | hj
      · rfl
      · exact absurd (htemps t (hb₁ ▸ ht)).1 (Nat.not_le.mpr (h.temps_room hj t ht'))
    · rcases hold hj with ⟨rfl, hb₂⟩ | hj
      · exact absurd (htemps t (hb₂ ▸ ht')).1 (Nat.not_le.mpr (h.temps_room hi t ht))
      · exact h.temps_apart hi hj t ht ht'
  · rcases hold hi with ⟨rfl, hb₁⟩ | hi
    · rcases hold hj with ⟨rfl, -⟩ | hj
      · rfl
      · exact absurd (hsites x (hb₁ ▸ hx)).1 (Nat.not_le.mpr (h.sites_room hj x hx'))
    · rcases hold hj with ⟨rfl, hb₂⟩ | hj
      · exact absurd (hsites x (hb₂ ▸ hx')).1 (Nat.not_le.mpr (h.sites_room hi x hx))
      · exact h.sites_apart hi hj x hx hx'

end Loaded

/-! ### Declarations -/

section Declarations

variable {p p' : Program}

theorem typed_spec {α : Type} {pos : Position} {problem : TypeSyntaxError → Problem}
    {r : Except TypeSyntaxError α} {a : α} (h : Gives (typed pos problem r) p a p') :
    r = .ok a ∧ p' = p := by
  unfold typed at h
  split at h
  · obtain ⟨rfl, rfl⟩ := gives_pure.mp h
    exact ⟨rfl, rfl⟩
  · exact absurd h not_gives_fail

/-- The data type was declared, with as many parameters as it says. -/
def Declares (env : Env) (spec : DataSpec) : Prop :=
  (∃ d ∈ env.datas, d.name = spec.name) ∧
    ∀ d ∈ env.datas, d.name = spec.name → d.params = spec.params.length

theorem addData?_spec {env env' : Env} {name : String} {params : Nat}
    (h : env.addData? name params = some env') :
    env'.datas = env.datas ++ [⟨name, params, []⟩] ∧ ∀ d ∈ env.datas, d.name ≠ name := by
  unfold Env.addData? at h
  split at h
  · cases h
  · rename_i hnew
    cases h
    refine ⟨rfl, fun d hd he => hnew ?_⟩
    unfold Env.tycon?
    split
    · rfl
    · rw [if_pos (List.any_eq_true.mpr ⟨d, hd, by simpa using he⟩)]
      rfl

/-- A loaded program that has no definitions yet. -/
def Bare (p : Program) : Prop := Loaded p ∧ p.defns = #[]

theorem declareData_spec {it : Item DataSpec} (h : Bare p) (hy : Gives (declareData it) p () p') :
    Bare p' ∧ Declares p'.env it.spec ∧ ∀ spec, Declares p.env spec → Declares p'.env spec := by
  rw [declareData, gives_bind] at hy
  obtain ⟨q, p₁, hget, hy⟩ := hy
  obtain ⟨rfl, rfl⟩ := gives_get.mp hget
  split at hy
  · rename_i env henv
    obtain rfl := gives_set.mp hy
    obtain ⟨hdatas, hnew⟩ := addData?_spec henv
    have hmem : ∀ {d}, d ∈ env.datas → d ∈ p₁.env.datas ∨
        d = ⟨it.spec.name, it.spec.params.length, []⟩ := fun hd => by
      rw [hdatas] at hd
      simpa using hd
    have hclosed : env.Closed := fun d hd k hk => by
      rcases hmem hd with hd | rfl
      · exact h.1.env d hd k hk
      · cases hk
    refine ⟨⟨h.1.withTables h.2 hclosed h.1.prims, h.2⟩, ⟨?_, ?_⟩, ?_⟩
    · exact ⟨⟨it.spec.name, it.spec.params.length, []⟩, by
        show _ ∈ env.datas
        rw [hdatas]
        simp, rfl⟩
    · intro d hd hname
      rcases hmem hd with hd | rfl
      · exact absurd hname (hnew d hd)
      · rfl
    · rintro spec ⟨⟨d₀, hd₀, hname₀⟩, hparams⟩
      refine ⟨⟨d₀, ?_, hname₀⟩, fun d hd hname => ?_⟩
      · show _ ∈ env.datas
        rw [hdatas]
        exact List.mem_append_left _ hd₀
      · rcases hmem hd with hd | rfl
        · exact hparams d hd hname
        · exact absurd (hname₀.trans hname.symm) (hnew d₀ hd₀)
  · exact absurd hy not_gives_fail

theorem declareDatas_spec {its : List (Item DataSpec)} (h : Bare p)
    (hy : Gives (its.forM declareData) p () p') :
    Bare p' ∧ (∀ spec, Declares p.env spec → Declares p'.env spec) ∧
      ∀ it ∈ its, Declares p'.env it.spec := by
  induction its generalizing p with
  | nil =>
      obtain ⟨-, rfl⟩ := gives_pure.mp hy
      exact ⟨h, fun _ hs => hs, fun _ hi => (nomatch hi)⟩
  | cons it its ih =>
      have hy : Gives (declareData it >>= fun _ => its.forM declareData) p () p' := hy
      rw [gives_bind] at hy
      obtain ⟨_, p₁, hfirst, hy⟩ := hy
      obtain ⟨h₁, hnew, hkeep⟩ := declareData_spec h hfirst
      obtain ⟨h₂, hkeep', hnew'⟩ := ih h₁ hy
      refine ⟨h₂, fun spec hs => hkeep' spec (hkeep spec hs), fun it' hi => ?_⟩
      rcases List.mem_cons.mp hi with rfl | hi
      · exact hkeep' _ hnew
      · exact hnew' it' hi

theorem closed_apply {n : Nat} {head : Ty} {args : List Ty} (hhead : head.Closed n)
    (hargs : ∀ a ∈ args, a.Closed n) : (Ty.apply head args).Closed n := by
  induction args generalizing head with
  | nil => exact hhead
  | cons a args ih =>
      exact ih (Ty.closed_ap.mpr ⟨hhead, hargs a (.head _)⟩) fun b hb => hargs b (.tail _ hb)

/-- A constructor whose fields are closed under the parameters of its data type has a closed type. -/
theorem addCfun?_spec {env env' : Env} {spec : DataSpec} {name : String} {fields : List Ty}
    (h : env.addCfun? spec.name name fields = some env') (hclosed : env.Closed)
    (hspec : Declares env spec) (hfields : ∀ t ∈ fields, t.Closed spec.params.length) :
    env'.Closed ∧ ∀ spec', Declares env spec' → Declares env' spec' := by
  unfold Env.addCfun? at h
  split at h
  · cases h
  · cases h
    have hmem : ∀ d' ∈ env.datas.map (fun d : DataType =>
        if d.name = spec.name then
          { d with cfuns := d.cfuns ++ [⟨name, d.cfuns.length, .data d.name,
            ⟨List.replicate d.params .star, fields,
              Ty.apply (.con (.data d.name)) ((List.range d.params).map .gen)⟩⟩] }
        else d), ∃ d ∈ env.datas, d'.name = d.name ∧ d'.params = d.params ∧
          ∀ k ∈ d'.cfuns, k ∈ d.cfuns ∨ (d.name = spec.name ∧
            k.type = ⟨List.replicate d.params .star, fields,
              Ty.apply (.con (.data d.name)) ((List.range d.params).map .gen)⟩) := by
      intro d' hd'
      obtain ⟨d, hd, rfl⟩ := List.mem_map.mp hd'
      refine ⟨d, hd, ?_⟩
      split
      · rename_i hname
        refine ⟨rfl, rfl, fun k hk => ?_⟩
        rcases List.mem_append.mp hk with hk | hk
        · exact .inl hk
        · rw [List.mem_singleton.mp hk]
          exact .inr ⟨hname, rfl⟩
      · exact ⟨rfl, rfl, fun k hk => .inl hk⟩
    constructor
    · intro d' hd' k hk
      obtain ⟨d, hd, -, -, hcfuns⟩ := hmem d' hd'
      rcases hcfuns k hk with hk | ⟨hname, hk⟩
      · exact hclosed d hd k hk
      · refine ⟨?_, .data d.name, .inr ⟨d.name, rfl⟩, by rw [hk, List.length_replicate]⟩
        rw [hk]
        intro t ht
        rw [List.length_replicate]
        rcases List.mem_append.mp ht with ht | ht
        · rw [hspec.2 d hd hname]
          exact hfields t ht
        · rw [List.mem_singleton.mp ht]
          refine closed_apply (Ty.closed_con _ _) fun a ha => ?_
          obtain ⟨m, hm, rfl⟩ := List.mem_map.mp ha
          exact Ty.closed_gen (List.mem_range.mp hm)
    · rintro spec' ⟨⟨d, hd, hname⟩, hparams⟩
      refine ⟨⟨_, List.mem_map_of_mem hd, ?_⟩, fun d' hd' hname' => ?_⟩
      · dsimp only
        split
        · exact hname
        · exact hname
      · obtain ⟨d, hd, hn, hp, -⟩ := hmem d' hd'
        exact hp.trans (hparams d hd (hn ▸ hname'))

theorem declareCfun_spec {it : Item DataSpec} {c : CfunSpec} (h : Bare p)
    (hspec : Declares p.env it.spec) (hy : Gives (declareCfun it c) p () p') :
    Bare p' ∧ ∀ spec, Declares p.env spec → Declares p'.env spec := by
  rw [declareCfun, gives_bind] at hy
  obtain ⟨q, p₁, hget, hy⟩ := hy
  obtain ⟨rfl, rfl⟩ := gives_get.mp hget
  rw [gives_bind] at hy
  obtain ⟨fields, p₂, hread, hy⟩ := hy
  obtain ⟨rfl, hfields⟩ := gives_mapM (I := fun p => p = p₁)
    (P := fun t : Ty => t.Closed it.spec.params.length) (fun text {s s' b} hs hy => by
      obtain ⟨hread, rfl⟩ := typed_spec hy
      exact ⟨hs, Ty.closed_readField hread⟩) rfl hread
  split at hy
  · rename_i env henv
    obtain rfl := gives_modify.mp hy
    obtain ⟨hclosed, hkeep⟩ := addCfun?_spec henv h.1.env hspec hfields
    exact ⟨⟨h.1.withTables h.2 hclosed h.1.prims, h.2⟩, hkeep⟩
  · exact absurd hy not_gives_fail

theorem declarePrim_spec {it : Item PrimSpec} (h : Bare p)
    (hy : Gives (declarePrim it) p () p') : Bare p' := by
  rw [declarePrim, gives_bind] at hy
  obtain ⟨q, p₁, hget, hy⟩ := hy
  obtain ⟨rfl, rfl⟩ := gives_get.mp hget
  rw [gives_bind] at hy
  obtain ⟨type, p₂, htype, hy⟩ := hy
  obtain ⟨hread, rfl⟩ := typed_spec htype
  rw [gives_bind] at hy
  obtain ⟨purity, p₃, hpurity, hy⟩ := hy
  have hp₃ : p₃ = p₂ := by
    unfold purityOf at hpurity
    split at hpurity
    · exact (gives_pure.mp hpurity).2.symm
    · split at hpurity
      · exact (gives_pure.mp hpurity).2.symm
      · exact absurd hpurity not_gives_fail
  subst hp₃
  split at hy
  · rename_i prims hprims
    obtain rfl := gives_set.mp hy
    refine ⟨h.1.withTables h.2 h.1.env ?_, h.2⟩
    unfold PrimTable.declare? at hprims
    split at hprims
    · cases hprims
    · cases hprims
      intro q hq
      rcases Array.mem_push.mp hq with hq | rfl
      · obtain ⟨hclosed, hstandard, hget⟩ := h.1.prims q hq
        exact ⟨hclosed, hstandard, getElem?_push_of_some hget _⟩
      · exact ⟨BlockType.closed_read hread, .inl rfl, Array.getElem?_push_size⟩
  · exact absurd hy not_gives_fail

theorem define_spec {d : Defn} {entry : Bool} {id : DefnId} (h : Loaded p)
    (hy : Gives (define d entry) p id p') (hb : BodyLoaded p.env p.prims d.body)
    (hwhole : d.replacedBy = none) (htemps : d.body.temps = []) (hatoms : d.body.atoms = []) :
    Loaded p' := by
  rw [define, gives_bind] at hy
  obtain ⟨q, p₁, hget, hy⟩ := hy
  obtain ⟨rfl, rfl⟩ := gives_get.mp hget
  rw [gives_bind] at hy
  obtain ⟨⟨id', p₂⟩, p₃, hlift, hy⟩ := hy
  obtain ⟨hdefine, rfl⟩ := gives_lift.mp hlift
  have hnew : Loaded p₂ := by
    have hnamed := h.named.define hdefine
    obtain ⟨-, -, rfl⟩ := Program.define_eq_ok hdefine
    exact h.push hb hwhole htemps hatoms hnamed
  rw [gives_bind] at hy
  obtain ⟨_, p₄, hset, hy⟩ := hy
  obtain rfl := gives_set.mp hset
  obtain ⟨-, rfl⟩ := gives_pure.mp hy
  split
  · exact hnew.addEntry id'
  · exact hnew

theorem declaredType_spec {α : Type} {pos : Position} {name text : String}
    {read : Env → String → Except TypeSyntaxError α} {r : Option α}
    (h : Gives (declaredType pos name text read) p r p') :
    p' = p ∧ ∀ a, r = some a → ∃ env text, read env text = .ok a := by
  unfold declaredType at h
  split at h
  · obtain ⟨rfl, rfl⟩ := gives_pure.mp h
    exact ⟨rfl, fun a ha => (nomatch ha)⟩
  · rw [gives_bind] at h
    obtain ⟨q, p₁, hget, h⟩ := h
    obtain ⟨rfl, rfl⟩ := gives_get.mp hget
    rw [gives_bind] at h
    obtain ⟨a, p₂, htyped, h⟩ := h
    obtain ⟨hread, rfl⟩ := typed_spec htyped
    obtain ⟨rfl, rfl⟩ := gives_pure.mp h
    exact ⟨rfl, fun b hb => ⟨_, _, Option.some.inj hb ▸ hread⟩⟩

theorem declareBlock_spec {it : Item BlockSpec} {id : DefnId} (h : Loaded p)
    (hy : Gives (declareBlock it) p id p') : Loaded p' := by
  rw [declareBlock, gives_bind] at hy
  obtain ⟨declared, p₁, hdecl, hy⟩ := hy
  obtain ⟨rfl, hread⟩ := declaredType_spec hdecl
  refine define_spec h hy ⟨?_, ?_, .nil, .nil, fun _ hc => (nomatch hc),
    fun _ hc => (nomatch hc), rfl⟩ rfl rfl rfl
  · rintro i (_ | ⟨_, ⟨⟩⟩) q hq
    obtain ⟨type, htype, rfl⟩ := Option.map_eq_some_iff.mp hq
    obtain ⟨env, text, hread⟩ := hread type htype
    exact BlockType.closed_read hread
  · rintro i (_ | ⟨_, ⟨⟩⟩)
    rfl

theorem declareClosure_spec {it : Item ClosureSpec} {id : DefnId} (h : Loaded p)
    (hy : Gives (declareClosure it) p id p') : Loaded p' := by
  rw [declareClosure, gives_bind] at hy
  obtain ⟨declared, p₁, hdecl, hy⟩ := hy
  obtain ⟨rfl, hread⟩ := declaredType_spec hdecl
  refine define_spec h hy ⟨?_, ?_, .nil, .nil, fun _ hc => (nomatch hc),
    fun _ hc => (nomatch hc), rfl⟩ rfl rfl rfl
  · rintro i (_ | ⟨_, ⟨⟩⟩) q hq
    obtain ⟨type, htype, rfl⟩ := Option.map_eq_some_iff.mp hq
    obtain ⟨env, text, hread⟩ := hread type htype
    exact AllocType.closed_read hread
  · rintro i (_ | ⟨_, ⟨⟩⟩)
    rfl

theorem topName_spec {it : Item TopSpec} {name : String} {index : Nat} {l : TopName}
    (h : Gives (topName it name index) p l p') :
    p' = p ∧ l.interface.DeclaredClosed ∧ l.interface.working = none := by
  unfold topName at h
  split at h
  · rw [gives_bind] at h
    obtain ⟨q, p₁, hget, h⟩ := h
    obtain ⟨rfl, rfl⟩ := gives_get.mp hget
    rw [gives_bind] at h
    obtain ⟨c, p₂, htyped, h⟩ := h
    obtain ⟨hread, rfl⟩ := typed_spec htyped
    obtain ⟨rfl, rfl⟩ := gives_pure.mp h
    refine ⟨rfl, fun q hq => ?_, rfl⟩
    cases hq
    exact Scheme.closed_read hread
  · obtain ⟨rfl, rfl⟩ := gives_pure.mp h
    exact ⟨rfl, fun q hq => (nomatch hq), rfl⟩

theorem declareTop_spec {it : Item TopSpec} {id : DefnId} (h : Loaded p)
    (hy : Gives (declareTop it) p id p') : Loaded p' := by
  unfold declareTop at hy
  dsimp only at hy
  split at hy
  · rw [gives_bind] at hy
    obtain ⟨_, _, hfail, -⟩ := hy
    exact absurd hfail not_gives_fail
  · rw [gives_bind] at hy
    obtain ⟨lhs, p₁, hnames, hy⟩ := hy
    obtain ⟨rfl, hlhs⟩ := gives_mapM (I := fun q => q = p)
      (P := fun l : TopName => l.interface.DeclaredClosed ∧ l.interface.working = none)
      (fun q {s s' b} hs hy => by
        obtain ⟨rfl, hl⟩ := topName_spec hy
        exact ⟨hs, hl⟩) rfl hnames
    refine define_spec h hy ⟨?_, ?_, .nil, .nil, fun _ hc => (nomatch hc),
    fun _ hc => (nomatch hc), rfl⟩ rfl rfl rfl
    · intro i hi
      obtain ⟨l, hl, rfl⟩ := List.mem_map.mp hi
      exact (hlhs l hl).1
    · intro i hi
      obtain ⟨l, hl, rfl⟩ := List.mem_map.mp hi
      exact (hlhs l hl).2

theorem declareExternal_spec {it : Item ExternalSpec} (h : Loaded p)
    (hy : Gives (declareExternal it) p () p') : Loaded p' := by
  rw [declareExternal, gives_bind] at hy
  obtain ⟨q, p₁, hget, hy⟩ := hy
  obtain ⟨rfl, rfl⟩ := gives_get.mp hget
  rw [gives_bind] at hy
  obtain ⟨⟨declared, types⟩, p₂, htyped, hy⟩ := hy
  obtain ⟨hread, rfl⟩ := typed_spec htyped
  rw [gives_bind] at hy
  obtain ⟨id, p₃, hdefine, hy⟩ := hy
  obtain ⟨-, rfl⟩ := gives_pure.mp hy
  refine define_spec h hdefine ⟨?_, ?_, .nil, .nil, trivial, rfl, rfl⟩ rfl rfl rfl
  · rintro i (_ | ⟨_, ⟨⟩⟩) q hq
    cases hq
    exact Scheme.closed_readExternal hread
  · rintro i (_ | ⟨_, ⟨⟩⟩)
    rfl

end Declarations

/-! ### Bodies -/

section Fill

variable {p p' : Program}

theorem exists_of_block? {id : DefnId} {b : Block} (h : p.block? id = some b) :
    ∃ d, p.defns[id]? = some d ∧ d.body = .block b := by
  unfold Program.block? at h
  split at h
  · rename_i hb
    cases h
    exact Option.map_eq_some_iff.mp hb
  · cases h

theorem exists_of_closure? {id : DefnId} {k : Closure} (h : p.closure? id = some k) :
    ∃ d, p.defns[id]? = some d ∧ d.body = .closure k := by
  unfold Program.closure? at h
  split at h
  · rename_i hk
    cases h
    exact Option.map_eq_some_iff.mp hk
  · cases h

theorem fillBlock_spec {it : Item BlockSpec} {id : DefnId} (h : Loaded p)
    (hy : Gives (fillBlock it id) p () p') : Loaded p' := by
  rw [fillBlock, gives_bind] at hy
  obtain ⟨⟨params, sc⟩, p₁, hbind, hy⟩ := hy
  obtain ⟨hg, hnodup, hparams, -, hscope⟩ := bindAll_spec hbind
  have hr := (h.ready p.temps.size).bind (Nat.le_refl _) hbind
  rw [gives_bind] at hy
  obtain ⟨body, p₂, hcode, hy⟩ := hy
  have hbody := code_spec hr hg.temps_le hcode
  obtain rfl := gives_modify.mp hy
  have hg₂ := hg.trans hbody.reads.grows
  split
  · rename_i b hb
    obtain ⟨d, hd, hb⟩ := exists_of_block? hb
    have hold := (h.grows hg₂).body hd
    rw [hb] at hold
    refine h.setBody hg₂ hd (by simp [Defn.boundNames, hb])
      ⟨hold.declared, hold.working, ?_, hbody.reads.nodup, ?_, ?_, hold.failed⟩
      (fun t ht => ?_) fun x hx => ?_
    · -- what the body binds is made after the parameters
      refine List.nodup_append.mpr ⟨hnodup, hbody.single, fun v hv w hw he => ?_⟩
      have hlt := (hparams v hv).2
      rw [he] at hlt
      exact absurd (hbody.binders w hw).1 (Nat.not_le.mpr hlt)
    · intro code hcode
      cases hcode
      exact hbody.signatures
    · intro code hcode
      cases hcode
      rw [← hg.env, ← hg.prims]
      exact hbody.formed.mono (by simpa [Scope.temps] using hscope)
    · rcases List.mem_append.mp ht with ht | ht
      · rcases List.mem_append.mp ht with ht | ht
        · exact ⟨(hparams t ht).1,
            Nat.lt_of_lt_of_le (hparams t ht).2 hbody.reads.grows.temps_le⟩
        · have := hbody.binders t ht
          exact ⟨Nat.le_trans hg.temps_le this.1, this.2⟩
      · obtain ⟨a, ha, hat⟩ := List.mem_filterMap.mp ht
        cases a <;> cases hat
        exact hbody.reads.temps t ha
    · have := hbody.reads.sites x hx
      exact ⟨Nat.le_trans hg.sites_le this.1, this.2⟩
  · exact h.grows hg₂

theorem fillClosure_spec {it : Item ClosureSpec} {id : DefnId} (h : Loaded p)
    (hy : Gives (fillClosure it id) p () p') : Loaded p' := by
  rw [fillClosure, gives_bind] at hy
  obtain ⟨⟨params, sc⟩, p₁, hbind, hy⟩ := hy
  obtain ⟨hg, hnodup, hparams, -, hscope⟩ := bindAll_spec hbind
  have hr := (h.ready p.temps.size).bind (Nat.le_refl _) hbind
  rw [gives_bind] at hy
  obtain ⟨⟨args, sc'⟩, p₂, hbind', hy⟩ := hy
  obtain ⟨hg', hnodup', hargs, -, hscope'⟩ := bindAll_spec hbind'
  have hr' := hr.bind hg.temps_le hbind'
  rw [gives_bind] at hy
  obtain ⟨t, p₃, htail, hy⟩ := hy
  obtain ⟨ht, hsig, hformed⟩ := tail_spec hr' htail
  obtain rfl := gives_modify.mp hy
  have hg₃ := (hg.trans hg').trans ht.grows
  split
  · rename_i k hk
    obtain ⟨d, hd, hk⟩ := exists_of_closure? hk
    have hold := (h.grows hg₃).body hd
    rw [hk] at hold
    refine h.setBody hg₃ hd (by simp [Defn.boundNames, hk])
      ⟨hold.declared, hold.working, ?_, ht.nodup, ?_, ?_, hold.failed⟩
      (fun v hv => ?_) fun x hx => ?_
    · -- arguments are made after the parameters
      refine List.Nodup.append (List.nodup_append.mpr ⟨hnodup, hnodup', fun v hv w hw he => ?_⟩) .nil
        (List.disjoint_nil_right _)
      have hlt := (hparams v hv).2
      rw [he] at hlt
      exact absurd (hargs w hw).1 (Nat.not_le.mpr hlt)
    · intro tail htail
      cases htail
      exact hsig
    · intro tail htail
      cases htail
      rw [← hg.env, ← hg'.env, ← hg.prims, ← hg'.prims]
      refine ⟨hformed.scope.mono fun v hv => ?_, hformed.named⟩
      rcases List.mem_append.mp (hscope' hv) with hv | hv
      · exact List.mem_append_right _ hv
      · exact List.mem_append_left _ (by simpa [Scope.temps] using hscope hv)
    · rcases List.mem_append.mp hv with hv | hv
      · rcases List.mem_append.mp hv with hv | hv
        · rcases List.mem_append.mp hv with hv | hv
          · exact ⟨(hparams v hv).1, Nat.lt_of_lt_of_le (hparams v hv).2
              (Nat.le_trans hg'.temps_le ht.grows.temps_le)⟩
          · exact ⟨Nat.le_trans hg.temps_le (hargs v hv).1,
              Nat.lt_of_lt_of_le (hargs v hv).2 ht.grows.temps_le⟩
        · cases hv
      · obtain ⟨a, ha, hat⟩ := List.mem_filterMap.mp hv
        cases a <;> cases hat
        exact ht.temps v ha
    · have := ht.sites x hx
      exact ⟨Nat.le_trans (hg.trans hg').sites_le this.1, this.2⟩
  · exact h.grows hg₃

theorem fillTop_spec {it : Item TopSpec} {id : DefnId} (h : Loaded p)
    (hy : Gives (fillTop it id) p () p') : Loaded p' := by
  rw [fillTop, gives_bind] at hy
  obtain ⟨t, p₁, htail, hy⟩ := hy
  obtain ⟨ht, hsig, hformed⟩ := tail_spec (h.ready p.temps.size) htail
  obtain rfl := gives_modify.mp hy
  split
  · rename_i top htop
    obtain ⟨d, hd, htop⟩ := Option.map_eq_some_iff.mp htop
    have hold := (h.grows ht.grows).body hd
    rw [htop] at hold
    refine h.setBody ht.grows hd (by simp [Defn.boundNames, htop])
      ⟨hold.declared, hold.working, .nil, ht.nodup, ?_, ?_, hold.failed⟩
      (fun v hv => ?_) fun x hx => ht.sites x hx
    · intro tail htail
      cases htail
      exact hsig
    · intro tail htail
      cases htail
      exact hformed
    · obtain ⟨a, ha, hat⟩ := List.mem_filterMap.mp hv
      cases a <;> cases hat
      exact ht.temps v ha
  · exact h.grows ht.grows

end Fill

/-! ### Whole programs -/

theorem closed_builtins : PrimTable.builtins.Closed := by
  intro q hq
  obtain ⟨op, hop, rfl⟩ := List.mem_map.mp (List.mem_toArray.mp hq)
  refine ⟨?_, .inr ⟨rfl, rfl⟩, ?_⟩
  swap
  · show (PrimOp.builtins.map Prim.builtin).toArray[PrimOp.builtins.idxOf op]? = _
    rw [List.getElem?_toArray, List.getElem?_map, List.getElem?_idxOf hop, Option.map_some]
  show ClosedUnder op.type.kinds.length op.type.parts
  intro t ht
  cases op <;> simp [PrimOp.type, PrimOp.access?, BlockType.ofLists, BlockType.parts] at ht ⊢ <;>
    rcases ht with rfl | rfl <;> simp [Ty.closed_tuple, Ty.word, Ty.flag, Ty.nzword, Ty.addr,
      Ty.bits, Ty.closed_ap, Ty.closed_con, Ty.closed_nat, Ty.closed_gen]

theorem loaded_empty : Loaded .empty where
  env _ hd := (nomatch hd)
  prims := closed_builtins
  store := rfl
  temps_blank _ := by simp [Program.empty, TempTypes.typeOf]
  sites_blank x hx := absurd hx (Nat.not_lt_zero x)
  body hd := by simp [Program.empty] at hd
  whole hd := by simp [Program.empty] at hd
  temps_room hd := by simp [Program.empty] at hd
  sites_room hd := by simp [Program.empty] at hd
  temps_apart hd := by simp [Program.empty] at hd
  sites_apart hd := by simp [Program.empty] at hd
  named := Program.named_empty

theorem build_spec {f : File} {p p' : Program} (h : Bare p) (hy : Gives (build f) p () p') :
    Loaded p' := by
  rw [build, gives_bind] at hy
  obtain ⟨_, p₁, hdatas, hy⟩ := hy
  obtain ⟨h₁, -, hdeclared⟩ := declareDatas_spec h hdatas
  rw [gives_bind] at hy
  obtain ⟨_, p₂, hcfuns, hy⟩ := hy
  have hcfun : ∀ it ∈ f.types, ∀ c, ∀ {p p'},
      (Bare p ∧ ∀ it ∈ f.types, Declares p.env it.spec) → Gives (declareCfun it c) p () p' →
      Bare p' ∧ ∀ it ∈ f.types, Declares p'.env it.spec := by
    intro it hit c p p' hp hy
    obtain ⟨hp', hkeep⟩ := declareCfun_spec hp.1 (hp.2 it hit) hy
    exact ⟨hp', fun it' hit' => hkeep _ (hp.2 it' hit')⟩
  obtain ⟨h₂, -⟩ := gives_forM (fun it hit {_ _} hs hy =>
    gives_forM (fun c _ {_ _} hs hy => hcfun it hit c hs hy) hs hy) ⟨h₁, hdeclared⟩ hcfuns
  rw [gives_bind] at hy
  obtain ⟨_, p₃, hprims, hy⟩ := hy
  obtain ⟨h₃, -⟩ := gives_forM (fun _ _ {_ _} hs hy => declarePrim_spec hs hy) h₂ hprims
  rw [gives_bind] at hy
  obtain ⟨blocks, p₄, hblocks, hy⟩ := hy
  obtain ⟨h₄, -⟩ := gives_mapM (P := fun _ => True)
    (fun _ {_ _ _} hs hy => ⟨declareBlock_spec hs hy, trivial⟩) h₃ hblocks
  rw [gives_bind] at hy
  obtain ⟨closures, p₅, hclosures, hy⟩ := hy
  obtain ⟨h₅, -⟩ := gives_mapM (P := fun _ => True)
    (fun _ {_ _ _} hs hy => ⟨declareClosure_spec hs hy, trivial⟩) h₄ hclosures
  rw [gives_bind] at hy
  obtain ⟨tops, p₆, htops, hy⟩ := hy
  obtain ⟨h₆, -⟩ := gives_mapM (P := fun _ => True)
    (fun _ {_ _ _} hs hy => ⟨declareTop_spec hs hy, trivial⟩) h₅ htops
  rw [gives_bind] at hy
  obtain ⟨_, p₇, hexternals, hy⟩ := hy
  have h₇ := gives_forM (fun _ _ {_ _} hs hy => declareExternal_spec hs hy) h₆ hexternals
  rw [gives_bind] at hy
  obtain ⟨_, p₈, hfill, hy⟩ := hy
  have h₈ := gives_forM (fun _ _ {_ _} hs hy => fillBlock_spec hs hy) h₇ hfill
  rw [gives_bind] at hy
  obtain ⟨_, p₉, hfill', hy⟩ := hy
  have h₉ := gives_forM (fun _ _ {_ _} hs hy => fillClosure_spec hs hy) h₈ hfill'
  exact gives_forM (fun _ _ {_ _} hs hy => fillTop_spec hs hy) h₉ hy

theorem addEntries_spec {p p' : Program} {names : List String} (h : Loaded p)
    (hy : Compiler.addEntries p names = .ok p') : Loaded p' := by
  induction names generalizing p with
  | nil =>
      cases hy
      exact h
  | cons name names ih =>
      unfold Compiler.addEntries at hy
      split at hy
      · exact ih (h.addEntry _) hy
      · cases hy

/-- Every program that a text describes is ready to be checked. -/
theorem parse_loaded {file text : String} {p : Program} (h : Program.parse file text = .ok p) :
    Loaded p := by
  obtain ⟨f, -, hbuild⟩ := Except.bind_eq_ok.mp h
  obtain ⟨⟨_, p₁⟩, hrun, hp⟩ := Except.bind_eq_ok.mp hbuild
  cases hp
  exact build_spec ⟨loaded_empty, rfl⟩ hrun

/-- It is still ready when entrypoints have been added. -/
theorem loaded_of_parse {file text : String} {names : List String} {p : Program}
    (h : (Program.parse file text >>= fun p => Compiler.addEntries p names) = .ok p) :
    Loaded p := by
  obtain ⟨p₀, hparse, hentries⟩ := Except.bind_eq_ok.mp h
  exact addEntries_spec (parse_loaded hparse) hentries

/-! ### What names denote -/

section Names

variable {p : Program} {d : Defn} {name : String} {id : DefnId}

/-- Do the names of a definition stand for values? -/
def isValue : DefnBody → Bool
  | .top _ => true
  | .external _ => true
  | _ => false

theorem get_bind {α : Type} (f : Program → Load α) : (get >>= f) p = f p p := rfl

theorem topAtom_of_none (hlookup : p.lookup? name = none) (pos : Position) :
    topAtom name pos p = .error ((Problem.undefinedName name).failure pos) := by
  rw [topAtom, get_bind, hlookup]
  rfl

/-- A reference leads to the first place where the definition has the name. -/
theorem topAtom_of_some (hlookup : p.lookup? name = some id) (hd : p.defns[id]? = some d)
    (hname : name ∈ d.boundNames) (pos : Position) : topAtom name pos p =
      if isValue d.body then
        .ok (.top id (d.boundNames.idxOf name) p.sites.size, (p.freshSite none).2)
      else .error ((Problem.notValue name).failure pos) := by
  rw [topAtom, get_bind, hlookup]
  dsimp only
  rw [hd, Option.map_some]
  unfold Defn.boundNames at hname ⊢
  cases hb : d.body with
  | block b => rfl
  | closure k => rfl
  | top t =>
      rw [List.idxOf, List.findIdx_map]
      rfl
  | external e =>
      rw [hb] at hname
      rw [List.idxOf_cons_eq _ (List.mem_singleton.mp hname).symm]
      rfl

/-- What names denote in a program that a text describes. All bindings of a name are in one
definition, and there are two of them only if it is a top-level definition whose names repeat. The
table and the search through the names of that definition lead to the first. A definition is turned
away if and only if it has a name that is bound, and then any program is left as it was. -/
theorem denotes_of_parse {file text : String} (h : Program.parse file text = .ok p) :
    (∀ {name id i id' j}, p.Binds name id i → p.Binds name id' j → id = id' ∧ (i ≠ j →
      ∃ d t, p.defns[id]? = some d ∧ d.body = .top t ∧ ¬ d.boundNames.Nodup)) ∧
    (∀ name id, p.lookup? name = some id ↔ ∃ i, p.Denotes name id i) ∧
    (∀ {name id i d}, p.Denotes name id i → p.defns[id]? = some d → ∀ pos, topAtom name pos p =
      if isValue d.body then .ok (.top id i p.sites.size, (p.freshSite none).2)
      else .error ((Problem.notValue name).failure pos)) ∧
    (∀ {name}, (∀ id i, ¬ p.Binds name id i) → ∀ pos, topAtom name pos p =
      .error ((Problem.undefinedName name).failure pos)) ∧
    (∀ d, (∃ f q, (Program.defineInPlace d).run p = (.error f, q)) ↔
      ∃ name ∈ d.boundNames, ∃ id i, p.Binds name id i) ∧
    ∀ (q q' : Program) d f, (Program.defineInPlace d).run q = (.error f, q') → q' = q := by
  have hnamed : p.Named := (parse_loaded h).named
  refine ⟨fun hi hj => ?_, fun name id => hnamed.lookup?_eq_some, fun hdenotes hd pos => ?_,
    fun {name} hnone pos => ?_, fun d => ?_, fun q q' d f hf => ?_⟩
  · obtain rfl := hnamed.unique hi hj
    exact ⟨rfl, hi.repeats hj⟩
  · have hlookup := hnamed.lookup?_eq_some.mpr ⟨_, hdenotes⟩
    obtain ⟨e, he, hname, rfl⟩ := hnamed.denotes_iff.mp hdenotes
    obtain rfl := Option.some.inj (hd.symm.trans he)
    exact topAtom_of_some hlookup hd hname pos
  · refine topAtom_of_none (Option.eq_none_iff_forall_ne_some.mpr fun id hlookup => ?_) pos
    obtain ⟨i, hi⟩ := (hnamed name id).mp hlookup
    exact hnone id i hi
  · rw [← hnamed.define_eq_error]
    simp [Program.defineInPlace_eq_error]
  · exact (Program.defineInPlace_eq_error.mp hf).2

/-- A text with a block and a top-level definition of two names. -/
def pairText : String :=
  "blocks:\n- name: f\n  code:\n  - return: []\ntops:\n- names: [g, h]\n  tail:\n    return: [1, 2]\n"

theorem boundNames_of_parse {file text : String} {nss : List (List String)}
    (h : (Program.parse file text).toOption.map Program.boundNames = some nss) :
    ∃ p, Program.parse file text = .ok p ∧ p.boundNames = nss := by
  obtain ⟨p, hp, hnames⟩ := Option.map_eq_some_iff.mp h
  cases hparse : Program.parse file text with
  | error f =>
      rw [hparse] at hp
      cases hp
  | ok q =>
      rw [hparse] at hp
      cases hp
      exact ⟨p, rfl, hnames⟩

theorem parse_eq (file text : String) {cs : List Char} (h : text.toList = cs) :
    Program.parse file text = File.ofRoot file (Yaml.Node.root cs) >>= Program.ofFile := by
  subst h
  rfl

theorem denotes_of_parse_pair : ∃ p, Program.parse "pair" pairText = .ok p ∧
    p.Binds "h" 1 1 ∧ ∀ id i, p.Binds "h" id i → id = 1 ∧ i = 1 := by
  have hnames : (Program.parse "pair" pairText).toOption.map Program.boundNames =
      some [["f"], ["g", "h"]] := by
    rw [parse_eq _ pairText String.toList_ofList]
    decide +kernel
  obtain ⟨p, hp, hnames⟩ := boundNames_of_parse hnames
  have hbinds : p.Binds "h" 1 1 := Program.binds_iff.mpr (by rw [hnames]; exact ⟨_, rfl, rfl⟩)
  refine ⟨p, hp, hbinds, fun id i hi => ?_⟩
  obtain ⟨rfl, hrepeats⟩ := (denotes_of_parse hp).1 hi hbinds
  refine ⟨rfl, by_contra fun hne => ?_⟩
  obtain ⟨d, -, hd, -, hdup⟩ := hrepeats hne
  have hbound : some d.boundNames = some ["g", "h"] := calc
    some d.boundNames = (p.defns[1]?).map Defn.boundNames := by rw [hd, Option.map_some]
    _ = p.boundNames[1]? := (p.getElem?_boundNames 1).symm
    _ = some ["g", "h"] := by
      rw [hnames]
      rfl
  rw [Option.some.inj hbound] at hdup
  exact hdup (by decide)

/-- A text whose only top-level definition has one name twice. -/
def twiceText : String :=
  "tops:\n- names: [f, f]\n  tail:\n    return: [1, 2]\n"

theorem parse_binds_twice : ∃ p, Program.parse "twice" twiceText = .ok p ∧
    p.Binds "f" 0 0 ∧ p.Binds "f" 0 1 := by
  have hnames : (Program.parse "twice" twiceText).toOption.map Program.boundNames =
      some [["f", "f"]] := by
    rw [parse_eq _ twiceText String.toList_ofList]
    decide +kernel
  obtain ⟨p, hp, hnames⟩ := boundNames_of_parse hnames
  refine ⟨p, hp, ?_, ?_⟩
  · exact Program.binds_iff.mpr (by rw [hnames]; exact ⟨_, rfl, rfl⟩)
  · exact Program.binds_iff.mpr (by rw [hnames]; exact ⟨_, rfl, rfl⟩)

end Names

end Source

end Mil
