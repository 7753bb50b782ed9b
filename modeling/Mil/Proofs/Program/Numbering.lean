import Mathlib.Data.List.Basic
import Mathlib.Data.List.Induction
import Mil.Program.Printer

/-!
Texts that are written while temporaries are numbered. A temporary gets its number when it is
mentioned for the first time, from those that are left by the parts of the text before it. Each part
of a text mentions its temporaries in one order whatever has numbers already, and later mentions
change no number; so the text is the one that is written when all numbers are known from the start.
-/

namespace Mil

/-! ### The order of numbers -/

/-- The temporaries in the order of their numbers after some have been mentioned. -/
def mention (order ms : List Temp) : List Temp :=
  ms.foldl (fun order t => if t ∈ order then order else order ++ [t]) order

section Mention

variable {order ms ns : List Temp} {t : Temp}

theorem mention_append : mention order (ms ++ ns) = mention (mention order ms) ns := List.foldl_append

theorem mention_cons : mention order (t :: ms) = mention (mention order [t]) ms := rfl

theorem mention_singleton : mention order [t] = if t ∈ order then order else order ++ [t] := rfl

theorem prefix_mention (order ms : List Temp) : order <+: mention order ms := by
  induction ms generalizing order with
  | nil => exact List.prefix_refl order
  | cons t ms ih =>
      rw [mention_cons]
      refine List.IsPrefix.trans ?_ (ih _)
      rw [mention_singleton]
      split
      · exact List.prefix_refl order
      · exact List.prefix_append order [t]

theorem mem_mention : t ∈ mention order ms ↔ t ∈ order ∨ t ∈ ms := by
  induction ms generalizing order with
  | nil => exact (or_iff_left List.not_mem_nil).symm
  | cons u ms ih =>
      rw [mention_cons, ih, mention_singleton, List.mem_cons]
      split
      · rename_i hu
        exact ⟨Or.imp_right .inr, by rintro (h | rfl | h) <;> tauto⟩
      · rw [List.mem_append, List.mem_singleton]
        tauto

/-- What has a number keeps it. -/
theorem idxOf_mention (h : t ∈ order) : (mention order ms).idxOf t = order.idxOf t := by
  obtain ⟨new, hnew⟩ := prefix_mention order ms
  rw [← hnew, List.idxOf_append_of_mem h]

/-- Numbers that start from zero number the first mentions. -/
theorem eraseDups_eq_mention (ms : List Temp) : ms.eraseDups = mention [] ms := by
  induction ms using List.reverseRecOn with
  | nil => rfl
  | append_singleton ms t ih =>
      have hmem : t ∈ mention [] ms ↔ t ∈ ms := mem_mention.trans (or_iff_right List.not_mem_nil)
      rw [List.eraseDups_append, mention_append, mention_singleton, ih]
      by_cases ht : t ∈ ms
      · rw [if_pos (hmem.mpr ht)]
        simp [List.removeAll, ht]
      · rw [if_neg (hmem.not.mpr ht)]
        simp [List.removeAll, ht, List.eraseDups_cons]

end Mention

/-! ### Writing -/

/-- Writing, with the temporaries that have numbers in the order of these. -/
abbrev Writing := StateM (List Temp)

namespace Writing

/-- Writes the name of a temporary, which gets the next number if it has none. -/
def temp (t : Temp) : Writing String :=
  modifyGet fun order =>
    if t ∈ order then ("t" ++ toString (order.idxOf t), order)
    else ("t" ++ toString order.length, order ++ [t])

/-- Writes the names of temporaries. -/
def temps (ts : List Temp) : Writing String := do
  let names ← ts.mapM temp
  return ", ".intercalate names

section Program

variable (p : Program)

/-- Writes an operand. -/
def atom : Atom → Writing String
  | .temp t => temp t
  | .lit l => return l.render
  | .top id index site => return ((⟨p, []⟩ : Printer).topName id index).getD (Atom.top id index site).render

/-- Writes operands. -/
def atoms (as : List Atom) : Writing String := do
  let texts ← as.mapM (atom p)
  return ", ".intercalate texts

/-- Writes the name of a block or closure. -/
def defnName (id : DefnId) : String := (⟨p, []⟩ : Printer).defnName id

/-- Writes a call. -/
def call (c : BlockCall) : Writing String := do
  let args ← atoms p c.args
  return defnName p c.block ++ "[" ++ args ++ "]"

/-- Writes a tail. -/
def tail : Tail → Writing String
  | .ret args => do
    let args ← atoms p args
    return "return [" ++ args ++ "]"
  | .call c => call p c
  | .prim q args _ => do
    let args ← atoms p args
    return q.name ++ "((" ++ args ++ "))"
  | .alloc k args _ => do
    let args ← atoms p args
    return defnName p k ++ "\x7b" ++ args ++ "\x7d"
  | .data k args _ => do
    let args ← atoms p args
    return k.name ++ "(" ++ args ++ ")"
  | .enter fn args => do
    let fn ← atom p fn
    let args ← atoms p args
    return fn ++ " @ [" ++ args ++ "]"
  | .sel k field arg _ => do
    let arg ← atom p arg
    return k.name ++ " " ++ toString field ++ " " ++ arg

/-- Writes a tail that may be missing. -/
def tail? : Option Tail → Writing String
  | some t => tail p t
  | none => return "?"

/-- Writes the left side of a binding. -/
def binders : List Temp → Writing String
  | [v] => temp v
  | vs => do
    let names ← temps vs
    return "[" ++ names ++ "]"

/-- Writes a body; the right side of a binding goes before the left one. -/
def code : Code → Writing (List String)
  | .bind vars t next => do
    let right ← tail p t
    let left ← binders vars
    let rest ← code next
    return ("  " ++ left ++ " <- " ++ right) :: rest
  | .done t => do
    let t ← tail p t
    return ["  " ++ t]
  | .branch cond c d => do
    let cond ← atom p cond
    let c ← call p c
    let d ← call p d
    return ["  if " ++ cond ++ " then " ++ c ++ " else " ++ d]
  | .case scrut alts default => do
    let scrut ← atom p scrut
    let alts ← alts.mapM fun (k, c) => do
      let c ← call p c
      return "    " ++ k.name ++ " -> " ++ c
    let default ← default.toList.mapM fun c => do
      let c ← call p c
      return "    _ -> " ++ c
    return ("  case " ++ scrut ++ " of") :: alts ++ default

/-- Writes a body that may be missing. -/
def code? : Option Code → Writing (List String)
  | some c => code p c
  | none => return []

/-- Writes the lines of a definition after the one that exports it. -/
def body (d : Defn) : Writing (List String) :=
  match d.body with
  | .block b => do
    let params ← temps b.params
    let rest ← code? p b.body
    return Printer.signature d.name (b.declared.map (·.render p.store))
      ++ [d.name ++ "[" ++ params ++ "] ="] ++ rest
  | .closure k => do
    let params ← temps k.params
    let args ← temps k.args
    let t ← tail? p k.tail
    return Printer.signature d.name (k.declared.map (·.render p.store))
      ++ [d.name ++ "\x7b" ++ params ++ "\x7d [" ++ args ++ "] = " ++ t]
  | .top t => do
    let right ← tail? p t.tail
    return t.lhs.flatMap (fun l => Printer.signature l.name (l.declared.map (·.render p.store)))
      ++ [", ".intercalate (t.lhs.map TopName.name) ++ " <- " ++ right]
  | .external e =>
    let generator :=
      if e.ref = "" then ""
      else " \x7b" ++ e.ref ++ String.join (e.types.map fun t => " (" ++ p.store.text t ++ ")")
        ++ "\x7d"
    return ["external " ++ d.name ++ generator ++ " :: " ++ e.declared.render p.store]

/-- Writes a definition; at first no temporary has a number. -/
def defn (d : Defn) : String :=
  let lines := ((body p d).run []).1
  String.join (((if d.entry then ["export " ++ d.name] else []) ++ lines).map (· ++ "\n"))

end Program

/-! ### What is written -/

/-- Writing that mentions temporaries in an order and gives what the numbers say, once all have one. -/
def Gives {α : Type} (x : Writing α) (ms : List Temp) (text : List Temp → α) : Prop :=
  ∀ order more, (x order).2 = mention order ms ∧ (x order).1 = text (mention (mention order ms) more)

section Gives

variable {α β : Type} {x : Writing α} {ms ns : List Temp} {text : List Temp → α}

theorem Gives.congr (h : Gives x ms text) {text' : List Temp → α} (hms : ms = ns)
    (htext : ∀ order, text order = text' order) : Gives x ns text' := by
  obtain rfl : text = text' := funext htext
  exact hms ▸ h

theorem gives_pure (a : α) : Gives (pure a) [] fun _ => a := fun _ _ => ⟨rfl, rfl⟩

theorem Gives.bind (h : Gives x ms text) {k : α → Writing β} {rest : α → List Temp → β}
    (hk : ∀ a, Gives (k a) ns (rest a)) : Gives (x >>= k) (ms ++ ns) fun order => rest (text order) order := by
  intro order more
  obtain ⟨hstate, -⟩ := h order []
  obtain ⟨-, hvalue⟩ := h order (ns ++ more)
  obtain ⟨hstate', hvalue'⟩ := hk (x order).1 (mention order ms) more
  have hrun : (x >>= k) order = k (x order).1 (x order).2 := rfl
  rw [hrun, hstate, mention_append]
  refine ⟨hstate', hvalue'.trans ?_⟩
  rw [hvalue, mention_append]

/-- A last step that mentions nothing. -/
theorem Gives.done (h : Gives x ms text) (f : α → β) :
    Gives (x >>= fun a => pure (f a)) ms fun order => f (text order) :=
  (h.bind fun a => gives_pure (f a)).congr (List.append_nil ms) fun _ => rfl

theorem gives_mapM {γ : Type} {k : γ → Writing α} {mentions : γ → List Temp} {texts : γ → List Temp → α}
    (h : ∀ c, Gives (k c) (mentions c) (texts c)) (cs : List γ) :
    Gives (cs.mapM k) (cs.flatMap mentions) fun order => cs.map fun c => texts c order := by
  induction cs with
  | nil => exact gives_pure []
  | cons c cs ih =>
      rw [List.mapM_cons]
      exact (h c).bind fun a => ih.done (a :: ·)

end Gives

/-- A number that is given out is where the temporary stands from then on. -/
theorem gives_temp (t : Temp) : Gives (temp t) [t] fun order => "t" ++ toString (order.idxOf t) := by
  intro order more
  have hmem : t ∈ mention order [t] := mem_mention.mpr (.inr (.head _))
  have hrun : temp t order = if t ∈ order then ("t" ++ toString (order.idxOf t), order)
      else ("t" ++ toString order.length, order ++ [t]) := rfl
  dsimp only
  rw [idxOf_mention hmem, hrun, mention_singleton]
  by_cases ht : t ∈ order
  · rw [if_pos ht, if_pos ht]
    exact ⟨rfl, rfl⟩
  · rw [if_neg ht, if_neg ht, List.idxOf_append_of_notMem ht, List.idxOf_cons_self, Nat.add_zero]
    exact ⟨rfl, rfl⟩

section Program

variable (p : Program)

theorem gives_temps (ts : List Temp) : Gives (temps ts) ts fun order => Printer.temps ⟨p, order⟩ ts :=
  ((gives_mapM gives_temp ts).done _).congr (List.flatMap_singleton' ts) fun _ => rfl

theorem gives_atom (a : Atom) : Gives (atom p a) a.temp?.toList fun order => Printer.atom ⟨p, order⟩ a := by
  cases a with
  | temp t => exact gives_temp t
  | lit l => exact gives_pure _
  | top id index site => exact gives_pure _

theorem flatMap_temp? (as : List Atom) : as.flatMap (fun a => a.temp?.toList) = as.filterMap Atom.temp? := by
  induction as with
  | nil => rfl
  | cons a as ih =>
      rw [List.flatMap_cons, ih]
      cases a <;> rfl

theorem gives_atoms (as : List Atom) :
    Gives (atoms p as) (as.filterMap Atom.temp?) fun order => Printer.atoms ⟨p, order⟩ as :=
  ((gives_mapM (gives_atom p) as).done _).congr (flatMap_temp? as) fun _ => rfl

theorem gives_call (c : BlockCall) :
    Gives (call p c) (c.args.filterMap Atom.temp?) fun order => Printer.call ⟨p, order⟩ c :=
  (gives_atoms p c.args).done _

theorem gives_tail (t : Tail) :
    Gives (tail p t) (t.atoms.filterMap Atom.temp?) fun order => Printer.tail ⟨p, order⟩ t := by
  cases t with
  | ret args => exact (gives_atoms p args).done _
  | call c => exact gives_call p c
  | prim q args inst => exact (gives_atoms p args).done _
  | alloc k args inst => exact (gives_atoms p args).done _
  | data k args inst => exact (gives_atoms p args).done _
  | enter fn args =>
      refine ((gives_atom p fn).bind fun f => (gives_atoms p args).done _).congr ?_ fun _ => rfl
      cases fn <;> rfl
  | sel k field arg inst =>
      refine ((gives_atom p arg).done _).congr ?_ fun _ => rfl
      cases arg <;> rfl

theorem gives_tail? (t : Option Tail) : Gives (tail? p t) ((t.map fun t => t.atoms.filterMap Atom.temp?).getD [])
    fun order => Printer.tail? ⟨p, order⟩ t := by
  cases t with
  | none => exact gives_pure "?"
  | some t => exact gives_tail p t

theorem gives_binders (vs : List Temp) : Gives (binders vs) vs fun order => Printer.binders ⟨p, order⟩ vs := by
  match vs with
  | [v] => exact gives_temp v
  | [] => exact (gives_temps p []).done _
  | v :: w :: vs => exact (gives_temps p (v :: w :: vs)).done _

theorem gives_code (c : Code) : Gives (code p c) c.mentions fun order => Printer.code ⟨p, order⟩ c := by
  induction c with
  | bind vars t next ih =>
      refine ((gives_tail p t).bind fun right => (gives_binders p vars).bind fun left => ih.done _).congr ?_
        fun _ => rfl
      rw [Code.mentions, List.append_assoc]
  | done t => exact (gives_tail p t).done _
  | branch cond c d =>
      refine ((gives_atom p cond).bind fun a => (gives_call p c).bind fun b => (gives_call p d).done _).congr ?_
        fun _ => rfl
      rw [← flatMap_temp?, ← flatMap_temp?, Code.mentions, ← flatMap_temp?]
      · simp [Code.atoms]
      · rintro _ _ _ ⟨⟩
  | case scrut alts default =>
      have halts := gives_mapM (fun (alt : Cfun × BlockCall) =>
        (gives_call p alt.2).done fun c => "    " ++ alt.1.name ++ " -> " ++ c) alts
      have hdefault := gives_mapM (fun c => (gives_call p c).done fun c => "    _ -> " ++ c) default.toList
      refine ((gives_atom p scrut).bind fun a => halts.bind fun b => hdefault.done _).congr ?_ fun _ => ?_
      · rw [Code.mentions, ← flatMap_temp?]
        · simp only [Code.atoms, Code.calls, List.flatMap_cons, List.flatMap_append, List.flatMap_map,
            List.flatMap_assoc, flatMap_temp?]
        · rintro _ _ _ ⟨⟩
      · cases default <;> rfl

theorem gives_code? (c : Option Code) :
    Gives (code? p c) ((c.map Code.mentions).getD []) fun order => (c.map (Printer.code ⟨p, order⟩)).getD [] := by
  cases c with
  | none => exact gives_pure []
  | some c => exact gives_code p c

/-- The lines of a definition after the one that exports it are those that the numbers give. -/
theorem gives_body (d : Defn) : Gives (body p d) d.body.mentions fun order =>
    Printer.defn ⟨p, order⟩ { d with entry := false } := by
  unfold body Printer.defn DefnBody.mentions
  cases d.body with
  | block b => exact (gives_temps p b.params).bind fun params => (gives_code? p b.body).done _
  | closure k =>
      refine ((gives_temps p k.params).bind fun params => (gives_temps p k.args).bind fun args =>
        (gives_tail? p k.tail).done _).congr (List.append_assoc ..).symm fun _ => rfl
  | top t => exact (gives_tail? p t.tail).done _
  | external e => exact gives_pure _

/-- A definition that is written with numbers given out on the way is the printed definition. -/
theorem defn_eq_printDefn (d : Defn) : defn p d = p.printDefn d := by
  have hlines : ((body p d).run []).1 = Printer.defn ⟨p, d.body.mentions.eraseDups⟩ { d with entry := false } := by
    rw [eraseDups_eq_mention]
    exact (gives_body p d [] []).2
  have hentry (order : List Temp) : Printer.defn ⟨p, order⟩ d
      = (if d.entry then ["export " ++ d.name] else []) ++ Printer.defn ⟨p, order⟩ { d with entry := false } := rfl
  rw [defn, Program.printDefn, hlines, hentry]

end Program

end Writing

end Mil
