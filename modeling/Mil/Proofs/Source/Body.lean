import Mil.Proofs.Ty.Reader
import Mil.Proofs.Typing.Invariant
import Mil.Source.Load

/-!
Bodies as they are loaded. Reading the body of a definition makes new temporaries and places and
changes nothing else. Its operands are temporaries that were made since its parameters, and no place
occurs in it twice.
-/

namespace Mil

/-- All constructors have closed types and build values of data types. -/
def Env.Closed (env : Env) : Prop :=
  ∀ d ∈ env.datas, ∀ k ∈ d.cfuns, ClosedUnder k.type.kinds.length k.type.parts ∧ k.Shaped

/-- All primitives have closed types, are built in or declared, and stand at their numbers. -/
def PrimTable.Closed (t : PrimTable) : Prop :=
  ∀ q ∈ t.prims, ClosedUnder q.type.kinds.length q.type.parts ∧ q.Standard ∧
    t.prims[q.index]? = some q

theorem Env.Closed.cfun? {env : Env} (h : env.Closed) {name : String} {k : Cfun}
    (hk : env.cfun? name = some k) :
    ClosedUnder k.type.kinds.length k.type.parts ∧ k.Shaped ∧ k.name = name := by
  unfold Env.cfun? at hk
  split at hk
  · rename_i hname
    cases hk
    refine ⟨fun t ht => ?_, ⟨.unit, .inl rfl, rfl⟩, hname.symm⟩
    rw [List.mem_singleton.mp ht]
    exact Ty.closed_con _ _
  · obtain ⟨d, hd, hmem⟩ := List.mem_flatMap.mp (List.mem_of_find?_eq_some hk)
    obtain ⟨hclosed, hshaped⟩ := h d hd k hmem
    exact ⟨hclosed, hshaped, by simpa using List.find?_some hk⟩

theorem Env.Closed.regular {env : Env} (h : env.Closed) : env.Regular :=
  fun _ _ hk => (h.cfun? hk).2.1

theorem PrimTable.Closed.find? {t : PrimTable} (h : t.Closed) {name : String} {q : Prim}
    (hq : t.find? name = some q) : ClosedUnder q.type.kinds.length q.type.parts ∧ q.Standard ∧
      t.prims[q.index]? = some q :=
  h q (Array.mem_of_find?_eq_some hq)

namespace Source

/-- New temporaries and places are made, all without types; nothing else changes. -/
structure Grows (p p' : Program) : Prop where
  env : p'.env = p.env
  prims : p'.prims = p.prims
  defns : p'.defns = p.defns
  names : p'.names = p.names
  store : p'.store = p.store
  temps_le : p.temps.size ≤ p'.temps.size
  sites_le : p.sites.size ≤ p'.sites.size
  temps_blank : (∀ t, p.temps.typeOf t = none) → ∀ t, p'.temps.typeOf t = none
  sites_blank : (∀ x : Nat, x < p.sites.size → p.sites[x]? = some none) →
    ∀ x : Nat, x < p'.sites.size → p'.sites[x]? = some none

theorem Grows.refl (p : Program) : Grows p p :=
  ⟨rfl, rfl, rfl, rfl, rfl, Nat.le_refl _, Nat.le_refl _, fun h => h, fun h => h⟩

theorem Grows.trans {p₁ p₂ p₃ : Program} (h : Grows p₁ p₂) (h' : Grows p₂ p₃) : Grows p₁ p₃ where
  env := h'.env.trans h.env
  prims := h'.prims.trans h.prims
  defns := h'.defns.trans h.defns
  names := h'.names.trans h.names
  store := h'.store.trans h.store
  temps_le := Nat.le_trans h.temps_le h'.temps_le
  sites_le := Nat.le_trans h.sites_le h'.sites_le
  temps_blank hb := h'.temps_blank (h.temps_blank hb)
  sites_blank hb := h'.sites_blank (h.sites_blank hb)

/-- Operands that were read between two programs: temporaries from `base` on, and new places. -/
structure Reads (base : Nat) (p p' : Program) (as : List Atom) : Prop where
  grows : Grows p p'
  temps : ∀ t, .temp t ∈ as → base ≤ t ∧ t < p'.temps.size
  sites : ∀ x : Nat, x ∈ sitesOf as → p.sites.size ≤ x ∧ x < p'.sites.size
  nodup : (sitesOf as).Nodup

section Reads

variable {base : Nat} {p p₁ p' : Program} {as bs : List Atom}

theorem Reads.nil (h : Grows p p') : Reads base p p' [] :=
  ⟨h, fun _ ht => (nomatch ht), fun _ hx => (nomatch hx), .nil⟩

theorem Reads.append (ha : Reads base p p₁ as) (hb : Reads base p₁ p' bs) :
    Reads base p p' (as ++ bs) := by
  have hsites : sitesOf (as ++ bs) = sitesOf as ++ sitesOf bs := List.filterMap_append
  refine ⟨ha.grows.trans hb.grows, fun t ht => ?_, fun x hx => ?_, ?_⟩
  · have := hb.grows.temps_le
    rcases List.mem_append.mp ht with ht | ht
    · have := ha.temps t ht
      omega
    · exact hb.temps t ht
  · have hle := ha.grows.sites_le
    have hle' := hb.grows.sites_le
    rw [hsites] at hx
    rcases List.mem_append.mp hx with hx | hx
    · have := ha.sites x hx
      omega
    · have := hb.sites x hx
      omega
  · rw [hsites]
    refine List.nodup_append.mpr ⟨ha.nodup, hb.nodup, fun x hx y hy he => ?_⟩
    have hlt := (ha.sites x hx).2
    have hge := (hb.sites y hy).1
    rw [he] at hlt
    exact absurd hge (Nat.not_le.mpr hlt)

theorem Reads.perm (h : Reads base p p' as) (hp : as.Perm bs) : Reads base p p' bs :=
  ⟨h.grows, fun t ht => h.temps t (hp.mem_iff.mpr ht),
    fun x hx => h.sites x ((hp.filterMap _).mem_iff.mpr hx), (hp.filterMap _).nodup_iff.mp h.nodup⟩

/-- Operands that are read and then dropped leave only new places behind. -/
theorem Reads.after (h : Grows p p₁) (hb : Reads base p₁ p' bs) : Reads base p p' bs :=
  (Reads.nil h).append hb

theorem Reads.before (ha : Reads base p p₁ as) (h : Grows p₁ p') : Reads base p p' as := by
  simpa using ha.append (Reads.nil h)

end Reads

/-- What is read in a scope: the types of constructors and primitives are closed, and the
temporaries in scope were made since `base`. -/
structure Ready (base : Nat) (sc : Scope) (p : Program) : Prop where
  env : p.env.Closed
  prims : p.prims.Closed
  scope : ∀ q ∈ sc, base ≤ q.2 ∧ q.2 < p.temps.size

theorem Ready.grows {base : Nat} {sc : Scope} {p p' : Program} (h : Ready base sc p)
    (hg : Grows p p') : Ready base sc p' :=
  ⟨hg.env ▸ h.env, hg.prims ▸ h.prims,
    fun q hq => ⟨(h.scope q hq).1, Nat.lt_of_lt_of_le (h.scope q hq).2 hg.temps_le⟩⟩

/-- The temporaries of a scope. -/
def Scope.temps (sc : Scope) : List Temp := sc.map Prod.snd

/-! ### Operands -/

section Operands

variable {base : Nat} {sc : Scope} {pos : Position} {p p' : Program}

theorem not_gives_fail {α : Type} {pos : Position} {problem : Problem} {a : α} :
    ¬ Gives (fail pos problem : Load α) p a p' := not_gives_throw

theorem reads_freshSite (id : DefnId) (index : Nat) :
    Reads base p (p.freshSite none).2 [.top id index (p.freshSite none).1] := by
  have hsize : (p.freshSite none).2.sites.size = p.sites.size + 1 := Array.size_push ..
  refine ⟨⟨rfl, rfl, rfl, rfl, rfl, Nat.le_refl _, by omega, fun h => h, fun h x hx => ?_⟩, ?_, ?_,
    ?_⟩
  · show (p.sites.push none)[x]? = some none
    rw [Array.getElem?_push]
    split
    · rfl
    · exact h x (by omega)
  · intro t ht
    simp at ht
  · intro x hx
    have hx : x = p.sites.size := by simpa [sitesOf, Atom.site?, Program.freshSite] using hx
    omega
  · exact List.nodup_singleton _

theorem topAtom_spec {name : String} {a : Atom} (h : Gives (topAtom name pos) p a p') :
    Reads base p p' [a] ∧ InScope [] [a] := by
  rw [topAtom, gives_bind] at h
  obtain ⟨q, p₁, hget, h⟩ := h
  obtain ⟨rfl, rfl⟩ := gives_get.mp hget
  have hreference : ∀ {id index}, Gives (do
      set (p₁.freshSite none).2
      return .top id index (p₁.freshSite none).1 : Load Atom) p₁ a p' →
      Reads base p₁ p' [a] ∧ InScope [] [a] := by
    intro id index h
    rw [gives_bind] at h
    obtain ⟨_, p₂, hset, h⟩ := h
    obtain rfl := gives_set.mp hset
    obtain ⟨rfl, rfl⟩ := gives_pure.mp h
    exact ⟨reads_freshSite id index, fun v hv => by simp at hv⟩
  dsimp only at h
  split at h
  · exact absurd h not_gives_fail
  · split at h
    · exact hreference h
    · exact hreference h
    · exact absurd h not_gives_fail

theorem atom_spec {name : String} {a : Atom} (hr : Ready base sc p)
    (h : Gives (atom sc pos name) p a p') : Reads base p p' [a] ∧ InScope sc.temps [a] := by
  have hlit : ∀ l, Reads base p p [.lit l] ∧ InScope sc.temps [.lit l] := fun l =>
    ⟨⟨.refl p, fun t ht => by simp at ht, fun x hx => (nomatch hx), .nil⟩, fun v hv => by simp at hv⟩
  unfold atom at h
  split at h
  · rename_i t ht
    obtain ⟨rfl, rfl⟩ := gives_pure.mp h
    have hmem : (name, t) ∈ sc := by
      obtain ⟨before, after, rfl, -⟩ := List.lookup_eq_some_iff.mp ht
      exact List.mem_append_right _ (.head _)
    refine ⟨⟨.refl p, fun u hu => ?_, fun x hx => (nomatch hx), .nil⟩, fun u hu => ?_⟩
    · obtain rfl : u = t := by simpa using hu
      exact hr.scope (name, u) hmem
    · obtain rfl : u = t := by simpa using hu
      exact List.mem_map_of_mem hmem
  · split at h
    · obtain ⟨rfl, rfl⟩ := gives_pure.mp h
      exact hlit _
    · split at h
      · obtain ⟨rfl, rfl⟩ := gives_pure.mp h
        exact hlit _
      · split at h
        · obtain ⟨rfl, rfl⟩ := gives_pure.mp h
          exact hlit _
        · obtain ⟨hreads, hscope⟩ := topAtom_spec h
          exact ⟨hreads, hscope.mono (List.nil_subset _)⟩

/-- Reading parts one after the other reads all their operands. -/
theorem reads_mapM {α β : Type} {E : Env} {f : α → Load β} {g : β → List Atom} {P : β → Prop}
    (hf : ∀ a b p p', Ready base sc p → p.env = E → Gives (f a) p b p' →
      Reads base p p' (g b) ∧ P b)
    {as : List α} {bs : List β} (hr : Ready base sc p) (henv : p.env = E)
    (h : Gives (as.mapM f) p bs p') : Reads base p p' (bs.flatMap g) ∧ ∀ b ∈ bs, P b := by
  induction as generalizing p bs with
  | nil =>
      rw [List.mapM_nil] at h
      obtain ⟨rfl, rfl⟩ := gives_pure.mp h
      exact ⟨.nil (.refl p), fun _ hb => nomatch hb⟩
  | cons a as ih =>
      rw [List.mapM_cons, gives_bind] at h
      obtain ⟨b, p₁, hb, h⟩ := h
      rw [gives_bind] at h
      obtain ⟨bs', p₂, hbs, h⟩ := h
      obtain ⟨rfl, rfl⟩ := gives_pure.mp h
      obtain ⟨hreads, hP⟩ := hf a b p p₁ hr henv hb
      obtain ⟨hreads', hP'⟩ := ih (hr.grows hreads.grows) (hreads.grows.env.trans henv) hbs
      refine ⟨hreads.append hreads', fun b' hb' => ?_⟩
      rcases List.mem_cons.mp hb' with rfl | hb'
      · exact hP
      · exact hP' b' hb'

theorem atoms_spec {names : List String} {as : List Atom} (hr : Ready base sc p)
    (h : Gives (names.mapM (atom sc pos)) p as p') :
    Reads base p p' as ∧ InScope sc.temps as := by
  obtain ⟨hreads, hscope⟩ := reads_mapM (g := fun a => [a]) (P := fun a => InScope sc.temps [a])
    (fun _ _ _ _ hr _ h => atom_spec hr h) hr rfl h
  rw [List.flatMap_singleton'] at hreads
  exact ⟨hreads, fun v hv => hscope _ hv v (.head _)⟩

/-! ### Tails and bodies -/

theorem defnRef_spec {name : String} {id : DefnId} (h : Gives (defnRef name pos) p id p') :
    p' = p := by
  rw [defnRef, gives_bind] at h
  obtain ⟨q, p₁, hget, h⟩ := h
  obtain ⟨rfl, rfl⟩ := gives_get.mp hget
  split at h
  · exact (gives_pure.mp h).2.symm
  · exact absurd h not_gives_fail

theorem cfun_spec {name : String} {k : Cfun} (hr : Ready base sc p)
    (h : Gives (cfun name pos) p k p') :
    p' = p ∧ ClosedUnder k.type.kinds.length k.type.parts ∧ p.env.cfun? k.name = some k := by
  rw [cfun, gives_bind] at h
  obtain ⟨q, p₁, hget, h⟩ := h
  obtain ⟨rfl, rfl⟩ := gives_get.mp hget
  split at h
  · rename_i hk
    obtain ⟨rfl, rfl⟩ := gives_pure.mp h
    obtain ⟨hclosed, -, hname⟩ := hr.env.cfun? hk
    exact ⟨rfl, hclosed, hname.symm ▸ hk⟩
  · exact absurd h not_gives_fail

theorem blockCall_spec {c : CallSpec} {call : BlockCall} (hr : Ready base sc p)
    (h : Gives (blockCall sc pos c) p call p') :
    Reads base p p' call.args ∧ InScope sc.temps call.args := by
  rw [blockCall, gives_bind] at h
  obtain ⟨id, p₁, hid, h⟩ := h
  obtain rfl := defnRef_spec hid
  rw [gives_bind] at h
  obtain ⟨q, p₂, hget, h⟩ := h
  obtain ⟨rfl, rfl⟩ := gives_get.mp hget
  split at h
  · rw [gives_bind] at h
    obtain ⟨_, _, hfail, -⟩ := h
    exact absurd hfail not_gives_fail
  · rw [gives_bind] at h
    obtain ⟨as, p₃, has, h⟩ := h
    obtain ⟨rfl, rfl⟩ := gives_pure.mp h
    exact atoms_spec hr has

theorem tail_spec {t : TailSpec} {tl : Tail} (hr : Ready base sc p)
    (h : Gives (tail sc pos t) p tl p') :
    Reads base p p' tl.atoms ∧ tl.SignaturesClosed ∧ tl.Formed p.env p.prims sc.temps := by
  rw [tail, gives_bind] at h
  obtain ⟨args, p₁, hargs, h⟩ := h
  obtain ⟨hargs, hscope⟩ := atoms_spec hr hargs
  have hr₁ := hr.grows hargs.grows
  have henv := hargs.grows.env
  split at h
  · rw [gives_bind] at h
    obtain ⟨as, p₂, has, h⟩ := h
    obtain ⟨rfl, rfl⟩ := gives_pure.mp h
    obtain ⟨has, hscope⟩ := atoms_spec hr₁ has
    exact ⟨has.after hargs.grows, trivial, hscope, trivial⟩
  · split at h
    · rw [gives_bind] at h
      obtain ⟨c, p₂, hc, h⟩ := h
      obtain ⟨rfl, rfl⟩ := gives_pure.mp h
      obtain ⟨hcall, hscope⟩ := blockCall_spec hr₁ hc
      exact ⟨hcall.after hargs.grows, trivial, hscope, trivial⟩
    split at h
    · rw [gives_bind] at h
      obtain ⟨q, p₂, hget, h⟩ := h
      obtain ⟨rfl, rfl⟩ := gives_get.mp hget
      split at h
      · rename_i hq
        obtain ⟨rfl, rfl⟩ := gives_pure.mp h
        obtain ⟨hclosed, hstandard⟩ := hr₁.prims.find? hq
        exact ⟨hargs, hclosed, hscope, hargs.grows.prims ▸ hstandard⟩
      · exact absurd h not_gives_fail
    split at h
    · rw [gives_bind] at h
      obtain ⟨id, p₂, hid, h⟩ := h
      obtain rfl := defnRef_spec hid
      rw [gives_bind] at h
      obtain ⟨q, p₃, hget, h⟩ := h
      obtain ⟨rfl, rfl⟩ := gives_get.mp hget
      split at h
      · rw [gives_bind] at h
        obtain ⟨_, _, hfail, -⟩ := h
        exact absurd hfail not_gives_fail
      · obtain ⟨rfl, rfl⟩ := gives_pure.mp h
        exact ⟨hargs, trivial, hscope, trivial⟩
    split at h
    · rw [gives_bind] at h
      obtain ⟨k, p₂, hk, h⟩ := h
      obtain ⟨rfl, hclosed, hnamed⟩ := cfun_spec hr₁ hk
      obtain ⟨rfl, rfl⟩ := gives_pure.mp h
      exact ⟨hargs, hclosed, hscope, henv ▸ hnamed⟩
    split at h
    · rw [gives_bind] at h
      obtain ⟨fn, p₂, hfn, h⟩ := h
      obtain ⟨rfl, rfl⟩ := gives_pure.mp h
      obtain ⟨hfn, hscope'⟩ := atom_spec hr₁ hfn
      exact ⟨(hargs.append hfn).perm List.perm_append_comm, trivial, hscope'.append hscope, trivial⟩
    split at h
    · rw [gives_bind] at h
      obtain ⟨k, p₂, hk, h⟩ := h
      obtain ⟨rfl, hclosed, hnamed⟩ := cfun_spec hr₁ hk
      split at h
      · obtain ⟨rfl, rfl⟩ := gives_pure.mp h
        exact ⟨hargs, hclosed, hscope, henv ▸ hnamed⟩
      · exact absurd h not_gives_fail
    exact absurd h not_gives_fail

theorem requiredCall_spec {c : Option CallSpec} {call : BlockCall} (hr : Ready base sc p)
    (h : Gives (requiredCall sc pos c) p call p') :
    Reads base p p' call.args ∧ InScope sc.temps call.args := by
  unfold requiredCall at h
  split at h
  · exact blockCall_spec hr h
  · exact absurd h not_gives_fail

/-- An alternative that was read: its constructor is known and its operands are in scope. -/
structure AltRead (E : Env) (sc : Scope) (alt : Cfun × BlockCall) : Prop where
  closed : ClosedUnder alt.1.type.kinds.length alt.1.type.parts
  named : E.cfun? alt.1.name = some alt.1
  scope : InScope sc.temps alt.2.args

theorem alternative_spec {E : Env} {a : AltSpec} {alt : Cfun × BlockCall} (hr : Ready base sc p)
    (henv : p.env = E)
    (h : Gives (alternative sc pos a) p alt p') :
    Reads base p p' alt.2.args ∧ AltRead E sc alt := by
  rw [alternative, gives_bind] at h
  obtain ⟨k, p₁, hk, h⟩ := h
  obtain ⟨rfl, hclosed, hnamed⟩ := cfun_spec hr hk
  rw [gives_bind] at h
  obtain ⟨c, p₂, hc, h⟩ := h
  obtain ⟨rfl, rfl⟩ := gives_pure.mp h
  obtain ⟨hcall, hscope⟩ := blockCall_spec hr hc
  exact ⟨hcall, hclosed, henv ▸ hnamed, hscope⟩

theorem default_spec {c : Option CallSpec} {call : Option BlockCall} (hr : Ready base sc p)
    (h : Gives (c.mapM (blockCall sc pos)) p call p') :
    Reads base p p' (call.toList.flatMap BlockCall.args) ∧
      InScope sc.temps (call.toList.flatMap BlockCall.args) := by
  cases c with
  | none =>
      obtain ⟨rfl, rfl⟩ := gives_pure.mp h
      exact ⟨.nil (.refl p), fun _ hv => (nomatch hv)⟩
  | some c =>
      have h : Gives (blockCall sc pos c >>= fun call => pure (some call)) p call p' := h
      rw [gives_bind] at h
      obtain ⟨call', p₁, hcall, h⟩ := h
      obtain ⟨rfl, rfl⟩ := gives_pure.mp h
      simpa using blockCall_spec hr hcall

/-! ### Binders -/

theorem freshAll_blank {temps : TempTypes} (h : ∀ t, temps.typeOf t = none) (names : List String)
    (t : Temp) : (temps.freshAll (names.map fun _ => none)).2.typeOf t = none := by
  induction names generalizing temps with
  | nil => exact h t
  | cons name names ih =>
      rw [List.map_cons, TempTypes.freshAll, TempTypes.fresh]
      refine ih fun u => ?_
      rw [TempTypes.typeOf, Array.getElem?_push]
      split
      · rfl
      · exact h u

/-- New temporaries are different, were not there before, and are in scope afterwards. -/
theorem bindAll_spec {names : List String} {vs : List Temp} {sc' : Scope}
    (h : Gives (bindAll sc names) p (vs, sc') p') :
    Grows p p' ∧ vs.Nodup ∧ (∀ v ∈ vs, p.temps.size ≤ v ∧ v < p'.temps.size) ∧
      (∀ q ∈ sc', q ∈ sc ∨ p.temps.size ≤ q.2 ∧ q.2 < p'.temps.size) ∧
      sc'.temps ⊆ vs ++ sc.temps := by
  rw [bindAll, gives_bind] at h
  obtain ⟨q, p₁, hget, h⟩ := h
  obtain ⟨rfl, rfl⟩ := gives_get.mp hget
  dsimp only [Program.freshTemps] at h
  rw [gives_bind] at h
  obtain ⟨_, p₂, hset, h⟩ := h
  obtain rfl := gives_set.mp hset
  obtain ⟨heq, rfl⟩ := gives_pure.mp h
  obtain ⟨hvs, hsc⟩ := Prod.mk.inj heq
  obtain ⟨hsize, hvars⟩ := p₁.temps.freshAll_spec (names.map fun _ => none)
  have hrange : ∀ v ∈ vs, p₁.temps.size ≤ v ∧
      v < (p₁.temps.freshAll (names.map fun _ => none)).2.size := by
    intro v hv
    rw [← hvs, hvars, List.mem_range'_1] at hv
    rwa [hsize]
  refine ⟨⟨rfl, rfl, rfl, rfl, rfl, ?_, Nat.le_refl _, fun h => freshAll_blank h names, fun h => h⟩,
    ?_, hrange, ?_, ?_⟩
  · show p₁.temps.size ≤ (p₁.temps.freshAll _).2.size
    omega
  · rw [← hvs, hvars]
    exact List.nodup_range'
  · intro q hq
    rw [← hsc] at hq
    rcases List.mem_append.mp hq with hq | hq
    · exact .inr (hrange q.2 (hvs ▸ (List.of_mem_zip (List.mem_reverse.mp hq)).2))
    · exact .inl hq
  · intro v hv
    obtain ⟨q, hq, rfl⟩ := List.mem_map.mp hv
    rw [← hsc] at hq
    rcases List.mem_append.mp hq with hq | hq
    · exact List.mem_append_left _ (hvs ▸ (List.of_mem_zip (List.mem_reverse.mp hq)).2)
    · exact List.mem_append_right _ (List.mem_map_of_mem hq)

theorem Ready.bind {names : List String} {vs : List Temp} {sc' : Scope} (hr : Ready base sc p)
    (hbase : base ≤ p.temps.size) (h : Gives (bindAll sc names) p (vs, sc') p') :
    Ready base sc' p' := by
  obtain ⟨hg, -, -, hsc, -⟩ := bindAll_spec h
  have hr' := hr.grows hg
  refine ⟨hr'.env, hr'.prims, fun q hq => ?_⟩
  rcases hsc q hq with hq | hq
  · exact hr'.scope q hq
  · exact ⟨Nat.le_trans hbase hq.1, hq.2⟩

/-- A body: its operands, and binders that were made for it. -/
structure CodeReads (base : Nat) (sc : Scope) (p p' : Program) (c : Code) : Prop where
  reads : Reads base p p' c.atoms
  binders : ∀ v ∈ c.binders, p.temps.size ≤ v ∧ v < p'.temps.size
  single : c.binders.Nodup
  signatures : c.SignaturesClosed
  formed : c.Formed p.env p.prims sc.temps

theorem code_spec {steps : List StepSpec} {c : Code} (hr : Ready base sc p)
    (hbase : base ≤ p.temps.size) (h : Gives (code pos sc steps) p c p') :
    CodeReads base sc p p' c := by
  induction steps generalizing sc p c with
  | nil => exact absurd h not_gives_fail
  | cons s rest ih =>
      rw [code] at h
      split at h
      · -- a branch ends the body
        split at h
        · rw [gives_bind] at h
          obtain ⟨_, _, hfail, -⟩ := h
          exact absurd hfail not_gives_fail
        · rw [gives_bind] at h
          obtain ⟨cond, p₁, hcond, h⟩ := h
          obtain ⟨hcond, hscope⟩ := atom_spec hr hcond
          rw [gives_bind] at h
          obtain ⟨t, p₂, ht, h⟩ := h
          obtain ⟨ht, hscope'⟩ := requiredCall_spec (hr.grows hcond.grows) ht
          rw [gives_bind] at h
          obtain ⟨f, p₃, hf, h⟩ := h
          obtain ⟨hf, hscope''⟩ := requiredCall_spec (hr.grows (hcond.append ht).grows) hf
          obtain ⟨rfl, rfl⟩ := gives_pure.mp h
          exact ⟨(hcond.append ht).append hf, List.forall_mem_nil _, .nil, trivial,
            (hscope.append hscope').append hscope''⟩
      split at h
      · -- so does a case
        split at h
        · rw [gives_bind] at h
          obtain ⟨_, _, hfail, -⟩ := h
          exact absurd hfail not_gives_fail
        · rw [gives_bind] at h
          obtain ⟨scrut, p₁, hscrut, h⟩ := h
          obtain ⟨hscrut, hscope⟩ := atom_spec hr hscrut
          rw [gives_bind] at h
          obtain ⟨alts, p₂, halts, h⟩ := h
          obtain ⟨halts, hread⟩ := reads_mapM (fun _ _ _ _ hr henv h => alternative_spec hr henv h)
            (hr.grows hscrut.grows) hscrut.grows.env halts
          rw [gives_bind] at h
          obtain ⟨default, p₃, hdefault, h⟩ := h
          obtain ⟨hdefault, hscope'⟩ :=
            default_spec (hr.grows (hscrut.append halts).grows) hdefault
          obtain ⟨rfl, rfl⟩ := gives_pure.mp h
          have hall := (hscrut.append halts).append hdefault
          have hatoms : (Code.case scrut alts default).atoms =
              [scrut] ++ alts.flatMap (fun alt => alt.2.args) ++
                default.toList.flatMap BlockCall.args := by
            rw [Code.atoms, Code.calls, List.flatMap_append, List.flatMap_map, List.append_assoc]
            rfl
          refine ⟨hatoms ▸ hall, List.forall_mem_nil _, .nil, fun alt ha => (hread alt ha).closed, ?_,
            fun alt ha => (hread alt ha).named⟩
          rw [hatoms]
          refine (hscope.append fun v hv => ?_).append hscope'
          obtain ⟨alt, ha, hv⟩ := List.mem_flatMap.mp hv
          exact (hread alt ha).scope v hv
      rw [gives_bind] at h
      obtain ⟨t, p₁, ht, h⟩ := h
      obtain ⟨ht, hsig, hformed⟩ := tail_spec hr ht
      split at h
      · split at h
        · exact absurd h not_gives_fail
        · obtain ⟨rfl, rfl⟩ := gives_pure.mp h
          exact ⟨ht, List.forall_mem_nil _, .nil, hsig, hformed⟩
      · rename_i next rest
        rw [gives_bind] at h
        obtain ⟨⟨vs, sc'⟩, p₂, hbind, h⟩ := h
        have hbase₁ := Nat.le_trans hbase ht.grows.temps_le
        obtain ⟨hg, hnodup, hvs, -, htemps⟩ := bindAll_spec hbind
        have hr₂ := (hr.grows ht.grows).bind hbase₁ hbind
        rw [gives_bind] at h
        obtain ⟨c', p₃, hc', h⟩ := h
        obtain ⟨rfl, rfl⟩ := gives_pure.mp h
        have hnext := ih hr₂ (Nat.le_trans hbase₁ hg.temps_le) hc'
        have hnext' := hnext.formed.mono htemps
        rw [hg.env, ht.grows.env, hg.prims, ht.grows.prims] at hnext'
        refine ⟨ht.append (hnext.reads.after hg), fun v hv => ?_, ?_, ⟨hsig, hnext.signatures⟩, hformed,
          hnext'⟩
        · rcases List.mem_append.mp hv with hv | hv
          · have hle := hnext.reads.grows.temps_le
            have := hvs v hv
            exact ⟨Nat.le_trans ht.grows.temps_le this.1, Nat.lt_of_lt_of_le this.2 hle⟩
          · have := hnext.binders v hv
            exact ⟨Nat.le_trans (ht.grows.trans hg).temps_le this.1, this.2⟩
        · -- the rest of the body binds what is made later
          refine List.nodup_append.mpr ⟨hnodup, hnext.single, fun v hv w hw he => ?_⟩
          have hlt := (hvs v hv).2
          rw [he] at hlt
          exact absurd (hnext.binders w hw).1 (Nat.not_le.mpr hlt)

end Operands

end Source

end Mil
