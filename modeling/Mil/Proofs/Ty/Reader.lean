import Mil.Proofs.Ty.Instance
import Mil.Ty.Reader

/-!
What the reader of types reads is closed: its variables are the names that were met, and there is a
kind for each of them. Readers only ever add names, so a type that was closed when it was read stays
closed until the end of the text.
-/

namespace Mil

/-- A computation that gives a value and a new state. -/
def Gives {ε σ α : Type} (x : StateT σ (Except ε) α) (s : σ) (a : α) (s' : σ) : Prop :=
  x s = .ok (a, s')

section Gives

variable {ε σ α β : Type} {s s' : σ}

theorem gives_bind {x : StateT σ (Except ε) α} {f : α → StateT σ (Except ε) β} {b : β} :
    Gives (x >>= f) s b s' ↔ ∃ a s₁, Gives x s a s₁ ∧ Gives (f a) s₁ b s' := by
  have hbind : (x >>= f) s = (x s).bind fun q => f q.1 q.2 := rfl
  unfold Gives
  rw [hbind]
  constructor
  · intro h
    cases hx : x s with
    | error e =>
        rw [hx] at h
        cases h
    | ok q =>
        rw [hx] at h
        exact ⟨q.1, q.2, rfl, h⟩
  · rintro ⟨a, s₁, hx, hf⟩
    rw [hx]
    exact hf

theorem gives_pure {a b : α} :
    Gives (pure a : StateT σ (Except ε) α) s b s' ↔ a = b ∧ s = s' := by
  unfold Gives
  constructor
  · intro h
    cases h
    exact ⟨rfl, rfl⟩
  · rintro ⟨rfl, rfl⟩
    rfl

theorem gives_get {q : σ} : Gives (get : StateT σ (Except ε) σ) s q s' ↔ q = s ∧ s' = s := by
  unfold Gives
  constructor
  · intro h
    cases h
    exact ⟨rfl, rfl⟩
  · rintro ⟨rfl, rfl⟩
    rfl

theorem gives_modify {f : σ → σ} :
    Gives (modify f : StateT σ (Except ε) PUnit) s () s' ↔ s' = f s := by
  unfold Gives
  constructor
  · intro h
    cases h
    rfl
  · rintro rfl
    rfl

theorem gives_set {q : σ} : Gives (set q : StateT σ (Except ε) PUnit) s () s' ↔ s' = q := by
  unfold Gives
  constructor
  · intro h
    cases h
    rfl
  · rintro rfl
    rfl

theorem gives_lift {r : Except ε α} {a : α} :
    Gives (liftM r : StateT σ (Except ε) α) s a s' ↔ r = .ok a ∧ s' = s := by
  unfold Gives
  constructor
  · intro h
    cases r with
    | error e => cases h
    | ok b =>
        cases h
        exact ⟨rfl, rfl⟩
  · rintro ⟨rfl, rfl⟩
    rfl

theorem not_gives_throw {e : ε} {a : α} : ¬ Gives (throw e : StateT σ (Except ε) α) s a s' := by
  intro h
  cases h

theorem gives_forM {I : σ → Prop} {f : α → StateT σ (Except ε) Unit} {as : List α}
    (hf : ∀ a ∈ as, ∀ {s s'}, I s → Gives (f a) s () s' → I s') (hs : I s)
    (h : Gives (as.forM f) s () s') : I s' := by
  induction as generalizing s with
  | nil =>
      obtain ⟨-, rfl⟩ := gives_pure.mp h
      exact hs
  | cons a as ih =>
      have h : Gives (f a >>= fun _ => as.forM f) s () s' := h
      rw [gives_bind] at h
      obtain ⟨_, s₁, hfirst, h⟩ := h
      exact ih (fun b hb => hf b (.tail _ hb)) (hf a (.head _) hs hfirst) h

theorem gives_mapM {I : σ → Prop} {P : β → Prop} {f : α → StateT σ (Except ε) β} {as : List α}
    {bs : List β} (hf : ∀ a {s s' b}, I s → Gives (f a) s b s' → I s' ∧ P b) (hs : I s)
    (h : Gives (as.mapM f) s bs s') : I s' ∧ ∀ b ∈ bs, P b := by
  induction as generalizing s bs with
  | nil =>
      rw [List.mapM_nil] at h
      obtain ⟨rfl, rfl⟩ := gives_pure.mp h
      exact ⟨hs, fun _ hb => (nomatch hb)⟩
  | cons a as ih =>
      rw [List.mapM_cons, gives_bind] at h
      obtain ⟨b, s₁, hb, h⟩ := h
      rw [gives_bind] at h
      obtain ⟨bs', s₂, hbs, h⟩ := h
      obtain ⟨rfl, rfl⟩ := gives_pure.mp h
      obtain ⟨hs₁, hP⟩ := hf a hs hb
      obtain ⟨hs₂, hP'⟩ := ih hs₁ hbs
      refine ⟨hs₂, fun b' hb' => ?_⟩
      rcases List.mem_cons.mp hb' with rfl | hb'
      · exact hP
      · exact hP' b' hb'

end Gives

/-- A computation that goes well and leaves another state, where a failure leaves one too. -/
def Yields {ε σ α : Type} (x : ExceptT ε (StateM σ) α) (s : σ) (a : α) (s' : σ) : Prop :=
  x s = (.ok a, s')

section Yields

variable {ε σ α β : Type} {s s' : σ}

theorem yields_bind {x : ExceptT ε (StateM σ) α} {f : α → ExceptT ε (StateM σ) β} {b : β} :
    Yields (x >>= f) s b s' ↔ ∃ a s₁, Yields x s a s₁ ∧ Yields (f a) s₁ b s' := by
  have hbind : (x >>= f) s = ExceptT.bindCont f (x s).1 (x s).2 := rfl
  unfold Yields
  rw [hbind]
  constructor
  · intro h
    rcases hx : x s with ⟨e | a, s₁⟩
    · rw [hx] at h
      cases h
    · rw [hx] at h
      exact ⟨a, s₁, rfl, h⟩
  · rintro ⟨a, s₁, hx, h⟩
    rw [hx]
    exact h

theorem yields_pure {a b : α} :
    Yields (pure a : ExceptT ε (StateM σ) α) s b s' ↔ a = b ∧ s = s' := by
  unfold Yields
  constructor
  · intro h
    cases h
    exact ⟨rfl, rfl⟩
  · rintro ⟨rfl, rfl⟩
    rfl

theorem yields_get {q : σ} : Yields (get : ExceptT ε (StateM σ) σ) s q s' ↔ q = s ∧ s' = s := by
  unfold Yields
  constructor
  · intro h
    cases h
    exact ⟨rfl, rfl⟩
  · rintro ⟨rfl, rfl⟩
    rfl

theorem yields_modify {f : σ → σ} :
    Yields (modify f : ExceptT ε (StateM σ) PUnit) s () s' ↔ s' = f s := by
  unfold Yields
  constructor
  · intro h
    cases h
    rfl
  · rintro rfl
    rfl

theorem yields_set {q : σ} :
    Yields (set q : ExceptT ε (StateM σ) PUnit) s () s' ↔ s' = q := by
  unfold Yields
  constructor
  · intro h
    cases h
    rfl
  · rintro rfl
    rfl

theorem not_yields_throw {e : ε} {a : α} :
    ¬ Yields (throw e : ExceptT ε (StateM σ) α) s a s' := by
  intro h
  cases h

end Yields

namespace Ty

theorem closed_con (n : Nat) (c : Tycon) : (Ty.con c).Closed n :=
  fun _ hx => absurd hx not_occurs_con

theorem closed_nat (n m : Nat) : (Ty.nat m).Closed n :=
  fun _ hx => absurd hx not_occurs_nat

theorem closed_gen {n m : Nat} (h : m < n) : (Ty.gen m).Closed n := by
  intro x hx
  exact ⟨m, h, occurs_gen.mp hx⟩

theorem closed_func {n : Nat} {dom rng : Ty} (hdom : dom.Closed n) (hrng : rng.Closed n) :
    (Ty.func dom rng).Closed n :=
  closed_ap.mpr ⟨closed_ap.mpr ⟨closed_con n _, hdom⟩, hrng⟩

namespace Reader

/-- From a state with at least `n` names, the reader keeps the names there are, keeps a kind for
each name, and gives a value that is fit for as many names as there are then. -/
def Sound {α : Type} (n : Nat) (x : Read α) (Q : Nat → α → Prop) : Prop :=
  ∀ s a s', n ≤ s.names.length → Gives x s a s' → s.names.length ≤ s'.names.length ∧
    (s.kinds.length = s.names.length → s'.kinds.length = s'.names.length) ∧ Q s'.names.length a

section Sound

variable {α β : Type} {n : Nat} {Q : Nat → α → Prop} {R : Nat → β → Prop}

theorem Sound.bind {x : Read α} {f : α → Read β} (hx : Sound n x Q)
    (hf : ∀ a m, n ≤ m → Q m a → Sound m (f a) R) : Sound n (x >>= f) R := by
  intro s b s' hn h
  obtain ⟨a, s₁, hxa, hfb⟩ := gives_bind.mp h
  obtain ⟨hle, hkinds, hQ⟩ := hx s a s₁ hn hxa
  obtain ⟨hle', hkinds', hR⟩ := hf a _ (Nat.le_trans hn hle) hQ s₁ b s' (Nat.le_refl _) hfb
  exact ⟨Nat.le_trans hle hle', fun h => hkinds' (hkinds h), hR⟩

theorem Sound.pure {a : α} (h : ∀ m, n ≤ m → Q m a) : Sound n (Pure.pure a) Q := by
  intro s b s' hn hy
  obtain ⟨rfl, rfl⟩ := gives_pure.mp hy
  exact ⟨Nat.le_refl _, fun h => h, h _ hn⟩

theorem Sound.throw {e : TypeSyntaxError} : Sound n (throw e : Read α) Q :=
  fun _ _ _ _ h => absurd h not_gives_throw

/-- A step that says nothing about the names. -/
theorem Sound.of_same {x : Read α} (h : ∀ s a s', Gives x s a s' →
    s'.names = s.names ∧ s'.kinds.length = s.kinds.length) : Sound n x fun _ _ => True := by
  intro s a s' _ hy
  obtain ⟨hnames, hkinds⟩ := h s a s' hy
  rw [hnames, hkinds]
  exact ⟨Nat.le_refl _, fun h => h, trivial⟩

theorem sound_peek : Sound n peek fun _ _ => True := by
  refine .of_same fun s a s' h => ?_
  rw [peek, gives_bind] at h
  obtain ⟨q, s₁, hget, h⟩ := h
  obtain ⟨rfl, rfl⟩ := gives_get.mp hget
  obtain ⟨-, rfl⟩ := gives_pure.mp h
  exact ⟨rfl, rfl⟩

theorem sound_next : Sound n next fun _ _ => True := by
  refine .of_same fun s a s' h => ?_
  rw [next, gives_bind] at h
  obtain ⟨q, s₁, hget, h⟩ := h
  obtain ⟨rfl, rfl⟩ := gives_get.mp hget
  rw [gives_bind] at h
  obtain ⟨_, s₂, hset, h⟩ := h
  obtain rfl := gives_set.mp hset
  obtain ⟨-, rfl⟩ := gives_pure.mp h
  exact ⟨rfl, rfl⟩

theorem sound_expect (lexeme : String) : Sound n (expect lexeme) fun _ _ => True := by
  refine sound_next.bind fun found m _ _ => ?_
  split
  · exact .throw
  · exact .pure fun _ _ => trivial

theorem sound_done : Sound n done fun _ _ => True := by
  refine .of_same fun s a s' h => ?_
  rw [done, gives_bind] at h
  obtain ⟨q, s₁, hget, h⟩ := h
  obtain ⟨rfl, rfl⟩ := gives_get.mp hget
  split at h
  · obtain ⟨-, rfl⟩ := gives_pure.mp h
    exact ⟨rfl, rfl⟩
  · exact absurd h not_gives_throw

theorem sound_fuel : Sound n fuel fun _ _ => True := by
  refine .of_same fun s a s' h => ?_
  rw [fuel, gives_bind] at h
  obtain ⟨q, s₁, hget, h⟩ := h
  obtain ⟨rfl, rfl⟩ := gives_get.mp hget
  obtain ⟨-, rfl⟩ := gives_pure.mp h
  exact ⟨rfl, rfl⟩

theorem sound_setKind (t : Ty) (k : Kind) : Sound n (setKind t k) fun _ _ => True := by
  refine .of_same fun s a s' h => ?_
  obtain rfl := gives_modify.mp h
  cases t with
  | gen m =>
      dsimp only
      split
      · exact ⟨rfl, List.length_set⟩
      · exact ⟨rfl, rfl⟩
  | _ => exact ⟨rfl, rfl⟩

theorem sound_varNamed (name : String) : Sound n (varNamed name) fun m t => t.Closed m := by
  intro s t s' hn h
  rw [varNamed, gives_bind] at h
  obtain ⟨q, s₁, hget, h⟩ := h
  obtain ⟨rfl, rfl⟩ := gives_get.mp hget
  split at h
  · rename_i hmem
    obtain ⟨rfl, rfl⟩ := gives_pure.mp h
    exact ⟨Nat.le_refl _, fun h => h, closed_gen (List.idxOf_lt_length_iff.mpr hmem)⟩
  · rw [gives_bind] at h
    obtain ⟨_, s₂, hset, h⟩ := h
    obtain rfl := gives_set.mp hset
    obtain ⟨rfl, rfl⟩ := gives_pure.mp h
    simp only [List.length_append, List.length_singleton]
    exact ⟨by omega, fun h => by omega, closed_gen (by omega)⟩

theorem sound_simple (env : Env) (lexeme : String) :
    Sound n (simple env lexeme) fun m t => t.Closed m := by
  unfold simple
  split
  · exact .throw
  · split
    · split
      · exact .pure fun m _ => closed_nat m _
      · exact .throw
    · split
      · exact sound_varNamed lexeme
      · split
        · exact .pure fun m _ => closed_con m _
        · exact .throw

end Sound

/-- All readers of types with the given fuel read closed types. -/
structure AllSound (env : Env) (fuel : Nat) : Prop where
  type : ∀ n, Sound n (type env fuel) fun m t => t.Closed m
  app : ∀ n, Sound n (app env fuel) fun m t => t.Closed m
  appArgs : ∀ n head, head.Closed n → Sound n (appArgs env fuel head) fun m t => t.Closed m
  atom : ∀ n, Sound n (atom env fuel) fun m t => t.Closed m
  list : ∀ n close, Sound n (list env fuel close) ClosedUnder
  items : ∀ n close, Sound n (items env fuel close) ClosedUnder

theorem allSound (env : Env) (fuel : Nat) : AllSound env fuel := by
  induction fuel with
  | zero => exact ⟨fun _ => .throw, fun _ => .throw, fun _ _ _ => .throw, fun _ => .throw,
      fun _ _ => .throw, fun _ _ => .throw⟩
  | succ fuel ih =>
      constructor
      · intro n
        rw [Reader.type]
        refine (ih.app n).bind fun t m _ ht => sound_peek.bind fun lexeme m' hm _ => ?_
        split
        · exact .pure fun k hk => ht.mono (Nat.le_trans hm hk)
        · refine sound_next.bind fun _ m₁ hm₁ _ => (ih.type m₁).bind fun rng m₂ hm₂ hrng =>
            (sound_setKind t .tuple).bind fun _ m₃ hm₃ _ =>
            (sound_setKind rng .tuple).bind fun _ m₄ hm₄ _ => .pure fun k hk => ?_
          exact closed_func (ht.mono (by omega)) (hrng.mono (by omega))
      · intro n
        rw [Reader.app]
        exact (ih.atom n).bind fun head m _ hhead => ih.appArgs m head hhead
      · intro n head hhead
        rw [Reader.appArgs]
        refine sound_peek.bind fun lexeme m hm _ => ?_
        split
        · refine (ih.atom m).bind fun arg m₁ hm₁ harg => ?_
          have hap : (Ty.ap head arg).Closed m₁ :=
            closed_ap.mpr ⟨hhead.mono (Nat.le_trans hm hm₁), harg⟩
          split
          · exact (sound_setKind arg .nat).bind fun _ m₂ hm₂ _ =>
              ih.appArgs m₂ _ (hap.mono hm₂)
          · exact ih.appArgs m₁ _ hap
        · exact .pure fun k hk => hhead.mono (Nat.le_trans hm hk)
      · intro n
        rw [Reader.atom]
        refine sound_next.bind fun lexeme m hm _ => ?_
        split
        · exact (ih.list m "]").bind fun ts m₁ _ hts =>
            .pure fun k hk => closed_tuple.mpr fun t ht => (hts t ht).mono hk
        · exact (ih.type m).bind fun t m₁ _ ht => (sound_expect ")").bind fun _ m₂ hm₂ _ =>
            .pure fun k hk => ht.mono (Nat.le_trans hm₂ hk)
        · exact sound_simple env _
      · intro n close
        rw [Reader.list]
        refine sound_peek.bind fun lexeme m hm _ => ?_
        split
        · exact sound_next.bind fun _ m₁ hm₁ _ => .pure fun k hk t ht => nomatch ht
        · exact ih.items m close
      · intro n close
        rw [Reader.items]
        refine (ih.type n).bind fun t m hm ht => sound_next.bind fun separator m₁ hm₁ _ => ?_
        split
        · refine (ih.items m₁ close).bind fun ts m₂ hm₂ hts => .pure fun k hk u hu => ?_
          rcases List.mem_cons.mp hu with rfl | hu
          · exact ht.mono (by omega)
          · exact (hts u hu).mono hk
        · split
          · refine .pure fun k hk u hu => ?_
            rw [List.mem_singleton.mp hu]
            exact ht.mono (Nat.le_trans hm₁ hk)
          · exact .throw

theorem sound_wholeType (env : Env) (n : Nat) :
    Sound n (wholeType env) fun m t => t.Closed m :=
  sound_fuel.bind fun fuel m _ _ => ((allSound env fuel).type m).bind fun _ _ _ ht =>
    sound_done.bind fun _ _ hm _ => .pure fun _ hk => ht.mono (Nat.le_trans hm hk)

/-- A sound reader on a whole text: there is a kind for each name. -/
theorem Sound.run {α : Type} {x : Read α} {Q : Nat → α → Prop} {text : String}
    {params : List String} {a : α} {s : State} (hx : Sound params.length x Q)
    (h : run text params x = .ok (a, s)) :
    params.length ≤ s.names.length ∧ s.kinds.length = s.names.length ∧ Q s.names.length a := by
  obtain ⟨s₀, hs₀, h⟩ : ∃ s₀, State.start text params = .ok s₀ ∧ Gives x s₀ a s := by
    unfold Reader.run at h
    cases hs₀ : State.start text params with
    | error e =>
        rw [hs₀] at h
        cases h
    | ok s₀ =>
        rw [hs₀] at h
        exact ⟨s₀, rfl, h⟩
  have hstart : s₀.names = params ∧ s₀.kinds.length = params.length := by
    unfold State.start at hs₀
    cases hlex : lex text with
    | error e =>
        rw [hlex] at hs₀
        cases hs₀
    | ok lexemes =>
        rw [hlex] at hs₀
        cases hs₀
        exact ⟨rfl, List.length_replicate⟩
  obtain ⟨hle, hkinds, hQ⟩ := hx s₀ a s (by rw [hstart.1]) h
  exact ⟨hstart.1 ▸ hle, hkinds (by rw [hstart.1, hstart.2]), hQ⟩

end Reader

end Ty

open Ty.Reader

theorem Except.bind_eq_ok {ε α β : Type} {x : Except ε α} {f : α → Except ε β} {b : β} :
    x >>= f = .ok b ↔ ∃ a, x = .ok a ∧ f a = .ok b := by
  cases x with
  | error e => exact ⟨fun h => (nomatch h), fun ⟨_, h, _⟩ => nomatch h⟩
  | ok a => exact ⟨fun h => ⟨a, rfl, h⟩, fun ⟨_, h, hf⟩ => Except.ok.inj h ▸ hf⟩

theorem Except.bind_eq_error {ε α β : Type} {x : Except ε α} {f : α → Except ε β} {e : ε} :
    x >>= f = .error e ↔ x = .error e ∨ ∃ a, x = .ok a ∧ f a = .error e := by
  cases x with
  | error e' =>
      refine ⟨fun h => .inl (congrArg Except.error (Except.error.inj h)), ?_⟩
      rintro (h | ⟨a, h, -⟩)
      · exact congrArg Except.error (Except.error.inj h)
      · cases h
  | ok a =>
      refine ⟨fun h => .inr ⟨a, rfl, h⟩, ?_⟩
      rintro (h | ⟨a', h, hf⟩)
      · cases h
      · exact Except.ok.inj h ▸ hf

theorem Except.map_eq_ok {ε α β : Type} {x : Except ε α} {f : α → β} {b : β}
    (h : x.map f = .ok b) : ∃ a, x = .ok a ∧ f a = b := by
  cases x with
  | error e => cases h
  | ok a => exact ⟨a, rfl, Except.ok.inj h⟩

theorem Scheme.closed_read {env : Env} {text : String} {c : Scheme} (h : read env text = .ok c) :
    ClosedUnder c.kinds.length c.parts := by
  obtain ⟨⟨t, s⟩, hrun, rfl⟩ := Except.map_eq_ok h
  obtain ⟨-, hkinds, ht⟩ := (sound_wholeType env _).run hrun
  intro u hu
  rw [List.mem_singleton.mp hu, hkinds]
  exact ht

theorem BlockType.closed_read {env : Env} {text : String} {b : BlockType}
    (h : read env text = .ok b) : ClosedUnder b.kinds.length b.parts := by
  obtain ⟨⟨⟨dom, rng⟩, s⟩, hrun, rfl⟩ := Except.map_eq_ok h
  have hsound : ∀ n, Sound n (do
      let dom ← app env (← fuel)
      expect ">>="
      let rng ← app env (← fuel)
      done
      setKind dom .tuple
      setKind rng .tuple
      return (dom, rng)) fun m q => q.1.Closed m ∧ q.2.Closed m := fun n =>
    sound_fuel.bind fun fuel m _ _ => ((allSound env fuel).app m).bind fun dom m₁ _ hdom =>
      (sound_expect ">>=").bind fun _ m₂ hm₂ _ => sound_fuel.bind fun fuel' m₃ hm₃ _ =>
      ((allSound env fuel').app m₃).bind fun rng m₄ hm₄ hrng => sound_done.bind fun _ m₅ hm₅ _ =>
      (sound_setKind dom .tuple).bind fun _ m₆ hm₆ _ =>
      (sound_setKind rng .tuple).bind fun _ m₇ hm₇ _ =>
      .pure fun k hk => ⟨hdom.mono (by omega), hrng.mono (by omega)⟩
  obtain ⟨-, hkinds, hdom, hrng⟩ := (hsound _).run hrun
  intro u hu
  rw [hkinds]
  rcases List.mem_cons.mp hu with rfl | hu
  · exact hdom
  · rw [List.mem_singleton.mp hu]
    exact hrng

theorem AllocType.closed_read {env : Env} {text : String} {a : AllocType}
    (h : read env text = .ok a) : ClosedUnder a.kinds.length a.parts := by
  obtain ⟨⟨⟨stored, result⟩, s⟩, hrun, rfl⟩ := Except.map_eq_ok h
  have hsound : ∀ n, Sound n (do
      expect "\x7b"
      let stored ← list env (← fuel) "\x7d"
      let result ← wholeType env
      return (stored, result)) fun m q => ClosedUnder m q.1 ∧ q.2.Closed m := fun n =>
    (sound_expect "\x7b").bind fun _ m _ _ => sound_fuel.bind fun fuel m₁ _ _ =>
      ((allSound env fuel).list m₁ "\x7d").bind fun stored m₂ _ hstored =>
      (sound_wholeType env m₂).bind fun result m₃ hm₃ hresult =>
      .pure fun k hk => ⟨fun t ht => (hstored t ht).mono (Nat.le_trans hm₃ hk), hresult.mono hk⟩
  obtain ⟨-, hkinds, hstored, hresult⟩ := (hsound _).run hrun
  intro u hu
  rw [hkinds]
  rcases List.mem_append.mp hu with hu | hu
  · exact hstored u hu
  · rw [List.mem_singleton.mp hu]
    exact hresult

/-- The type of a field is closed under the parameters of its data type. -/
theorem Ty.closed_readField {env : Env} {text : String} {params : List String} {t : Ty}
    (h : readField env text params = .ok t) : t.Closed params.length := by
  rw [readField, Except.bind_eq_ok] at h
  obtain ⟨⟨t', s⟩, hrun, h⟩ := h
  obtain ⟨-, hkinds, ht⟩ := (sound_wholeType env _).run hrun
  dsimp only at h
  split at h
  · cases h
  · rename_i hnone
    cases h
    exact ht.mono (List.getElem?_eq_none_iff.mp hnone)

theorem Ty.Reader.sound_argTypes (env : Env) (n : Nat) (texts : List String) :
    Sound n (argTypes env texts) fun _ _ => True := by
  induction texts generalizing n with
  | nil => exact .pure fun _ _ => trivial
  | cons text texts ih =>
      rw [argTypes]
      have hlex : Sound n (lex text : Read (List String)) fun _ _ => True := by
        refine .of_same fun s a s' h => ?_
        unfold Gives at h
        cases hlex : lex text with
        | error e =>
            rw [hlex] at h
            cases h
        | ok lexemes =>
            rw [hlex] at h
            cases h
            exact ⟨rfl, rfl⟩
      refine hlex.bind fun lexemes m _ _ => ?_
      have hset : Sound m (modify fun s => { s with lexemes } : Read PUnit) fun _ _ => True := by
        refine .of_same fun s a s' h => ?_
        obtain rfl := gives_modify.mp h
        exact ⟨rfl, rfl⟩
      exact hset.bind fun _ m₁ _ _ => (sound_wholeType env m₁).bind fun t m₂ _ _ =>
        (ih m₂).bind fun ts m₃ _ _ => .pure fun _ _ => trivial

theorem Scheme.closed_readExternal {env : Env} {text : String} {args : List String} {c : Scheme}
    {types : List Ty} (h : readExternal env text args = .ok (c, types)) :
    ClosedUnder c.kinds.length c.parts := by
  have hsound : ∀ n, Sound n (do
      let t ← wholeType env
      let vars := (← get).names.length
      return (t, vars, ← argTypes env args)) fun m (q : Ty × Nat × List Ty) => q.1.Closed m := by
    intro n
    refine (sound_wholeType env n).bind fun t m _ ht => ?_
    have hget : Sound m (get : Read State) fun _ _ => True := by
      refine .of_same fun s a s' h => ?_
      obtain ⟨-, rfl⟩ := gives_get.mp h
      exact ⟨rfl, rfl⟩
    exact hget.bind fun s m₁ hm₁ _ => (sound_argTypes env m₁ args).bind fun ts m₂ hm₂ _ =>
      .pure fun k hk => ht.mono (by omega)
  rw [readExternal, Except.bind_eq_ok] at h
  obtain ⟨⟨⟨t, vars, types'⟩, s⟩, hrun, h⟩ := h
  obtain ⟨-, hkinds, ht⟩ := (hsound _).run hrun
  dsimp only at h
  split at h
  · cases h
  · cases h
    intro u hu
    rw [List.mem_singleton.mp hu, hkinds]
    exact ht

end Mil
