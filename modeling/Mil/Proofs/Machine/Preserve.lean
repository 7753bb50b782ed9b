import Mil.Proofs.Machine.Safety
import Mil.Proofs.Machine.Simulate

/-!
Specialisation preserves behaviour. A run of an entrypoint that returns values and prints words does
the same after specialisation, however many copies a definition has come to have.

One thing has to be granted. The values of a top-level definition that quantifies something are
computed once before, and once for each copy afterwards; so nothing may be printed and memory may not
be touched on the way.
-/

namespace Mil

/-! ### Values that can be compared -/

namespace Value

mutual

/-- Is there no closure in the value? -/
def closureFree : Value → Bool
  | .word _ => true
  | .flag _ => true
  | .closure _ _ => false
  | .data _ fields => closureFrees fields

/-- Is there no closure in the values? -/
def closureFrees : List Value → Bool
  | [] => true
  | v :: vs => closureFree v && closureFrees vs

end

/-- Two values are the same, if closures are compared only as being closures. -/
inductive Alike : Value → Value → Prop
  | word (w : Word) : Alike (.word w) (.word w)
  | flag (b : Bool) : Alike (.flag b) (.flag b)
  | closure (i j : DefnId) (fields fields' : List Value) :
      Alike (.closure i fields) (.closure j fields')
  | data {k : Cfun} {fields fields' : List Value} (h : List.Forall₂ Alike fields fields') :
      Alike (.data k fields) (.data k fields')

end Value

namespace Machine

section Values

variable {S : DefnId → DefnId → Prop}

mutual

theorem ValueCopy.alike {v v' : Value} (h : ValueCopy S v v') : v.Alike v' := by
  cases v with
  | word w =>
      cases h
      exact .word w
  | flag b =>
      cases h
      exact .flag b
  | closure i fields =>
      cases h
      exact .closure _ _ _ _
  | data k fields =>
      cases h with
      | data hfields => exact .data (ValuesCopy.alike hfields)
termination_by sizeOf v

theorem ValuesCopy.alike {vs vs' : List Value} (h : ValuesCopy S vs vs') :
    List.Forall₂ Value.Alike vs vs' := by
  cases vs with
  | nil =>
      cases h
      exact .nil
  | cons v vs =>
      cases h with
      | cons hv hvs => exact .cons (ValueCopy.alike hv) (ValuesCopy.alike hvs)
termination_by sizeOf vs

end

mutual

/-- A value without closures is a copy of itself. -/
theorem valueCopy_self {v : Value} (h : v.closureFree = true) : ValueCopy S v v := by
  cases v with
  | word w => exact .word w
  | flag b => exact .flag b
  | closure i fields => cases h
  | data k fields => exact .data (valuesCopy_self h)
termination_by sizeOf v

theorem valuesCopy_self {vs : List Value} (h : Value.closureFrees vs = true) :
    ValuesCopy S vs vs := by
  cases vs with
  | nil => exact .nil
  | cons v vs =>
      rw [Value.closureFrees, Bool.and_eq_true] at h
      exact .cons (valueCopy_self h.1) (valuesCopy_self h.2)
termination_by sizeOf vs

end

end Values

/-! ### Specialised programs -/

open Typing (Complete Checker accepted accepted_eq accepted_spec)

/-- What specialisation makes of a checked program has copies of its definitions. -/
theorem copies_of_tracks {p : Program} {s : Mono.State} (h : Complete p) (ht : Mono.Tracks p [] s)
    (hqueue : s.queue = []) : Copies p s.program (s.Serves p) where
  resolve := Program.resolve_of_whole h.layout.whole
  resolve' := Program.resolve_of_whole ht.whole
  impl hd he := by
    have hformed := h.layout.formed hd
    rw [he] at hformed
    exact hformed
  defined := by
    rintro i j (⟨k, hk, rfl⟩ | ⟨rfl, d, e, hd, -⟩)
    · exact ⟨_, Array.getElem?_eq_getElem (ht.asked hk).1⟩
    · exact ⟨d, hd⟩
  copy := by
    rintro i j d (⟨k, hk, rfl⟩ | ⟨rfl, d', e, hd', he, -⟩) hd
    · rcases ht.served hk hd with ⟨q, hq, -⟩ | hcopy
      · rw [hqueue] at hq
        exact absurd hq List.not_mem_nil
      · exact .inr hcopy
    · rw [hd] at hd'
      cases hd'
      exact .inl ⟨e, he⟩
  params {i d b} hd hb := by
    have hinputs := h.layout.inputs hd
    rw [hb] at hinputs
    exact hinputs
  source := by
    -- a copy that was asked for stands behind the program, or is the definition itself
    have hown {k : Mono.CloneKey} {j : DefnId} (hk : (k, j) ∈ s.clones)
        (hext : Mono.MonoExternal p j) : k.defn = j := by
      obtain ⟨d, e, hd, -⟩ := hext
      have hlt := (Array.getElem?_eq_some_iff.mp hd).1
      rcases (ht.asked hk).2.2 with ⟨hj, -⟩ | ⟨hj, -⟩
      · exact hj.symm
      · omega
    rintro i i' j (⟨k, hk, rfl⟩ | ⟨rfl, hext⟩) (⟨k', hk', rfl⟩ | ⟨rfl, hext'⟩)
    · exact ht.source hk hk'
    · exact hown hk hext'
    · exact (hown hk' hext).symm
    · rfl
  unique hij hij' hd hmono :=
    (ht.eq_of_serves hij hd hmono).trans (ht.eq_of_serves hij' hd hmono).symm

/-! ### Runs of entrypoints -/

/-- A run of a definition, without a bound on its steps, returns values and leaves a machine. -/
def Returns (p : Program) (m : Machine) (id : DefnId) (args vals : List Value) (m' : Machine) :
    Prop :=
  ∃ n, loop p n (start p m id args).1 (start p m id args).2 = (.ok vals, m')

/-- In a run of a definition, nothing is printed and memory is not touched for a top-level
definition that quantifies something. -/
def QuietRun (p : Program) (m : Machine) (id : DefnId) (args : List Value) : Prop :=
  ∀ n, LoopAllowed p (QuietTops p) n (start p m id args).1 (start p m id args).2

section Start

variable {p q : Program} {S : DefnId → DefnId → Prop} {id : DefnId} {d : Defn} {b : Block}

/-- A block is run by taking up its body. -/
theorem start_block (hresolve : p.resolve id = id) (hd : p.defns[id]? = some d)
    (hb : d.body = .block b) {code : Code} (hcode : b.body = some code) {m : Machine}
    {args : List Value} (hlen : args.length = b.params.length) :
    start p m id args =
      Job.go p { m with pos := d.pos } [] (.code code (assign [] b.params args)) := by
  unfold start Program.defn
  dsimp only
  rw [hresolve, hd]
  dsimp only
  rw [hb]
  dsimp only
  rw [if_neg (not_not.mpr hlen), hcode]
  rfl

/-- A block that returns was given as many values as it takes. -/
theorem Returns.length_eq (hresolve : p.resolve id = id) (hd : p.defns[id]? = some d)
    (hb : d.body = .block b) {m m' : Machine} {args vals : List Value}
    (h : Returns p m id args vals m') : args.length = b.params.length := by
  by_contra hlen
  obtain ⟨n, hloop⟩ := h
  unfold start Program.defn at hloop
  dsimp only at hloop
  rw [hresolve, hd] at hloop
  dsimp only at hloop
  rw [hb] at hloop
  dsimp only at hloop
  rw [if_pos hlen] at hloop
  exact (Stuck.halt _).not_loop hloop

/-- Machines that have done nothing are in step, wherever they are. -/
theorem sync_new (p q : Program) (S : DefnId → DefnId → Prop) (size : Int) (pos pos₂ : Position) :
    Sync p q S { new size 0 with pos := pos } { new size 0 with pos := pos₂ } where
  agrees := ⟨rfl, fun _ h => (nomatch h), fun _ h => (nomatch h), fun _ h => (nomatch h)⟩
  matched := ⟨fun _ h => (nomatch h), fun _ h => (nomatch h)⟩
  trace := rfl
  idle _ h := nomatch h
  ready := by
    rintro j pos t₂ m₂ ⟨_, _, _, h, _⟩
    cases h

/-- A run of a block that is a copy of itself. -/
theorem Returns.simulate (hc : Copies p q S) (hserves : S id id) (hd : p.defns[id]? = some d)
    (hb : d.body = .block b) {size : Int} {args vals : List Value} {m : Machine}
    (hquiet : QuietRun p (.new size 0) id args) (hargs : Value.closureFrees args = true)
    (h : Returns p (.new size 0) id args vals m) :
    ∃ vals₂ m₂, Returns q (.new size 0) id args vals₂ m₂ ∧ ValuesCopy S vals vals₂ ∧
      m₂.trace = m.trace := by
  have hlen := h.length_eq (hc.resolve _) hd hb
  obtain ⟨n, hloop⟩ := h
  have hall := hquiet n
  rcases hc.copy hserves hd with ⟨e, he⟩ | ⟨d', hd', hcopy⟩
  · rw [hb] at he
    cases he
  · rw [hb] at hcopy
    generalize hb' : d'.body = body' at hcopy
    cases hcopy with
    | @block _ b' code code' hcode hcode' hlen' hfresh hcopy _ =>
        rw [start_block (hc.resolve _) hd hb hcode hlen] at hloop hall
        obtain ⟨k, vs, m', -, -, heval, hloop, -⟩ :=
          evaluates_of_loop (j := .code code (assign [] b.params args)) (by exact Int.le_refl 0)
            trivial hloop hall
        obtain ⟨rfl, rfl⟩ : vs = vals ∧ m' = m := by
          cases k <;> cases hloop <;> exact ⟨rfl, rfl⟩
        have hjob : JobCopy p S (.code code (assign [] b.params args))
            (.code code' (assign [] b'.params args)) :=
          .code hcopy (Mono.Renames.carries_params (hc.params hd hb) hfresh (valuesCopy_self hargs))
        obtain ⟨vals₂, m₂, heval₂, hvals, hsync⟩ :=
          heval.simulate hc hjob (sync_new p q S size d.pos d'.pos) none
        obtain ⟨k₂, hk₂⟩ := heval₂.exists_loop (Int.le_refl 0) [] 0
        refine ⟨vals₂, m₂, ⟨k₂, ?_⟩, hvals, hsync.trace⟩
        rw [start_block (hc.resolve' _) hd' hb' hcode' (hlen.trans hlen'.symm)]
        exact hk₂

end Start

/-! ### Runs that can be examined -/

instance (p : Program) (i : DefnId) : Decidable (PolyTop p i) :=
  match hd : p.defns[i]? with
  | none => isFalse fun ⟨_, _, h, _⟩ => by rw [hd] at h; cases h
  | some d =>
    match hb : d.body with
    | .top t =>
      decidable_of_iff (d.body.isPolymorphic = true) ⟨fun h => ⟨d, t, hd, hb, h⟩, by
        rintro ⟨d', t', hd', -, h⟩
        rw [hd] at hd'
        cases hd'
        exact h⟩
    | .block _ | .closure _ | .external _ => isFalse fun ⟨d', t, hd', ht, _⟩ => by
        rw [hd] at hd'
        cases hd'
        rw [hb] at ht
        cases ht

instance (p : Program) (o : Option DefnId) (t : Tail) : Decidable (QuietTops p o t) :=
  match o with
  | none => isTrue fun _ h => nomatch h
  | some i => decidable_of_iff (PolyTop p i → t.leavesTrace = false)
      ⟨fun h _ hj => Option.some.inj hj ▸ h, fun h => h i rfl⟩

/-- The rest of a run can be examined. -/
def decideLoopAllowed (p : Program) (ok : Option DefnId → Tail → Prop)
    [∀ o t, Decidable (ok o t)] : (n : Nat) → (c : Next) → (m : Machine) →
      Decidable (LoopAllowed p ok n c m)
  | 0, _, _ => isTrue trivial
  | n + 1, .tail (some t) env stack, m =>
    have := decideLoopAllowed p ok n (step p m (some t) env stack).1 (step p m (some t) env stack).2
    inferInstanceAs (Decidable (_ ∧ _))
  | _ + 1, .tail none _ _, _ => isTrue trivial
  | _ + 1, .finish _, _ => isTrue trivial
  | _ + 1, .halt _, _ => isTrue trivial

instance (p : Program) (ok : Option DefnId → Tail → Prop) [∀ o t, Decidable (ok o t)] (n : Nat)
    (c : Next) (m : Machine) : Decidable (LoopAllowed p ok n c m) := decideLoopAllowed p ok n c m

/-- After its end a run performs nothing. -/
theorem LoopAllowed.of_loop {p : Program} {ok : Option DefnId → Tail → Prop} {n : Nat} {c : Next}
    {m m' : Machine} {vals : List Value} (hloop : loop p n c m = (.ok vals, m'))
    (h : LoopAllowed p ok n c m) (k : Nat) : LoopAllowed p ok k c m := by
  induction k generalizing n c m with
  | zero => trivial
  | succ k ih =>
      cases c with
      | finish vs => trivial
      | halt e => trivial
      | tail t env stack =>
          cases t with
          | none => trivial
          | some t =>
              cases n with
              | zero => cases hloop
              | succ n => exact ⟨h.1, ih hloop h.2⟩


/-! ### Preservation -/

/-- Specialisation preserves behaviour: if a program is loaded, its check ends with no failure and it
can be specialised, then a run of an entrypoint, at any word size and on arguments without closures,
that returns values and prints words also returns after specialisation, with the same values up to
closures and the same words printed. It is granted that nothing is printed, and memory is not
touched, for top-level definitions that quantify something. -/
theorem specialize_returns {file text : String} {names : List String} {p : Program}
    {log : FailureLog} {c : Checker} {q : Program} {id : DefnId} {d : Defn} {b : Block} {size : Int}
    {args vals : List Value} {m : Machine}
    (hload : (Program.parse file text >>= fun p => Compiler.addEntries p names) = .ok p)
    (hcheck : p.check.run ⟨p, log⟩ = (.ok (), c)) (hlog : c.log.entries = [])
    (hspec : c.program.specialize = .ok q) (hentry : id ∈ c.program.entries)
    (hd : c.program.defns[id]? = some d) (hb : d.body = .block b)
    (hquiet : QuietRun c.program (.new size 0) id args)
    (hargs : Value.closureFrees args = true)
    (hrun : Returns c.program (.new size 0) id args vals m) :
    ∃ vals' m', Returns q (.new size 0) id args vals' m' ∧ List.Forall₂ Value.Alike vals vals' ∧
      m'.printed = m.printed ∧ m'.memory = m.memory := by
  have hcomplete := Typing.complete_of_check (Source.loaded_of_parse hload) hcheck hlog
  obtain ⟨s, hyields, rfl⟩ := Mono.exists_of_specialize hspec
  obtain ⟨htracks, hqueue, hentries⟩ := Mono.program_spec hcomplete.prepared hyields
  have hcopies := copies_of_tracks hcomplete htracks hqueue
  obtain ⟨vals', m', hrun', hvals, htrace⟩ :=
    hrun.simulate hcopies (hentries id hentry) hd hb hquiet hargs
  obtain ⟨hmemory, hprinted⟩ := Prod.mk.inj htrace
  exact ⟨vals', m', hrun', hvals.alike, hprinted, hmemory⟩

/-- Does the first block of a checked program run on three within some steps, with nothing to be seen
of what is computed for top-level definitions, and are there two definitions more after
specialisation? -/
def runsQuietly (p : Program) (n : Nat) : Bool :=
  match p.specialize, loop p n (start p (.new 64 0) 0 [.word 3]).1 (start p (.new 64 0) 0 [.word 3]).2 with
  | .ok q, (.ok _, _) => p.entries.contains 0 && (p.block? 0).isSome &&
    decide (q.defns.size = p.defns.size + 2) && decide (LoopAllowed p (QuietTops p) n
      (start p (.new 64 0) 0 [.word 3]).1 (start p (.new 64 0) 0 [.word 3]).2)
  | _, _ => false

/-- A text with an empty list, which is used in a list of words and in a list of flags. -/
def listText : String :=
  "types:\n- name: List\n  params: [a]\n  cfuns:\n  - name: Nil\n  - name: Cons\n" ++
  "    fields: [a, List a]\ntops:\n- names: [empty]\n  tail: \x7bdata: Nil\x7d\nblocks:\n- name: f\n" ++
  "  type: \"[Word] >>= [List Word]\"\n  params: [x]\n  code:\n  - bind: [l]\n    data: Cons\n" ++
  "    args: [x, empty]\n  - bind: [k]\n    data: Cons\n    args: [true, empty]\n  - return: [l]\n"

theorem specialize_returns_list : ∃ p c q vals m vals' m',
    (Program.parse "list" listText >>= fun p => Compiler.addEntries p ["f"]) = .ok p ∧
    p.check.run ⟨p, .empty⟩ = (.ok (), c) ∧ c.program.specialize = .ok q ∧
    q.defns.size = c.program.defns.size + 2 ∧
    Returns c.program (.new 64 0) 0 [.word 3] vals m ∧ Returns q (.new 64 0) 0 [.word 3] vals' m' ∧
    List.Forall₂ Value.Alike vals vals' ∧ m'.printed = m.printed := by
  have hall : (accepted "list" listText ["f"]).any (fun c => runsQuietly c.program 10) = true := by
    rw [accepted_eq _ listText _
      (toList_append_ofList (toList_append_ofList (toList_append_ofList String.toList_ofList)))]
    decide +kernel
  obtain ⟨c, hc, hall⟩ := (Option.any_eq_true _ _).mp hall
  obtain ⟨p, hload, hcheck, hlog⟩ := accepted_spec hc
  unfold runsQuietly at hall
  split at hall
  · rename_i q vals m hspec hloop
    simp only [Bool.and_eq_true, decide_eq_true_eq, List.contains_iff_mem] at hall
    obtain ⟨⟨⟨hentry, hblock⟩, hsize⟩, hallowed⟩ := hall
    obtain ⟨b, hb⟩ := Option.isSome_iff_exists.mp hblock
    obtain ⟨d, hd, hb⟩ := Source.exists_of_block? hb
    have hrun : Returns c.program (.new 64 0) 0 [.word 3] vals m := ⟨10, hloop⟩
    obtain ⟨vals', m', hrun', hvals, hprinted, -⟩ := specialize_returns hload hcheck hlog hspec
      hentry hd hb (.of_loop hloop hallowed) rfl hrun
    exact ⟨p, c, q, vals, m, vals', m', hload, hcheck, hspec, hsize, hrun, hrun', hvals, hprinted⟩
  · cases hall

end Machine

end Mil
