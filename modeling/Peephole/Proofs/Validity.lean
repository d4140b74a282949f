import Peephole.Proofs.Parsing

/-!
# The static rules

`Program.Valid` collects the rules on names and numbers that a program has to obey: a declaration
has a new name and a size within bounds; a reference names an earlier declaration, with an index
exactly if that is a register, and then one below its size; an application has targets, and as many
as its gate takes. It says nothing about texts.

Every program that is read obeys them (`valid_of_parse`).
-/

set_option autoImplicit false
set_option relaxedAutoImplicit false

namespace Peephole

open Source (maxSize)

/-! ### The rules -/

/-- A reference fits a declaration: a slot below the size of a register, or a single qubit. -/
def Declaration.Offers (d : Declaration) (q : Qubit) : Prop :=
  d.name = q.register ∧
    ((d.size = none ∧ q.index = none) ∨
      ∃ size index, d.size = some size ∧ q.index = some index ∧ index < size)

/-- A reference to a qubit that is declared. -/
def Qubit.Resolves (scope : List Declaration) (q : Qubit) : Prop :=
  ∃ d ∈ scope, d.Offers q

/-- A gate takes a number of targets. A custom gate has no name of a standard gate. -/
def Gate.Takes (targets : Nat) : Gate → Prop
  | standard g => targets = g.arity
  | custom name arity _ =>
    targets = arity ∧ targets ≤ maxSize ∧ ∀ g : StandardGate, name ∉ g.names

/-- An application that obeys the rules after some declarations. -/
structure Application.Valid (scope : List Declaration) (a : Application) : Prop where
  targets_ne_nil : a.targets ≠ []
  takes : a.gate.Takes a.targets.length
  targets : ∀ q ∈ a.targets, q.Resolves scope
  guards : ∀ c ∈ a.guards, c.qubit.Resolves scope

/-- A declaration that obeys the rules after some others. -/
structure Declaration.Valid (scope : List Declaration) (d : Declaration) : Prop where
  fresh : ∀ d' ∈ scope, d'.name ≠ d.name
  size : ∀ size, d.size = some size → 1 ≤ size ∧ size ≤ maxSize

/-- A program that obeys the rules after some declarations. -/
def Program.Valid : List Declaration → Program → Prop
  | _, [] => True
  | scope, .declare d :: rest => d.Valid scope ∧ Valid (scope ++ [d]) rest
  | scope, .apply a :: rest => a.Valid scope ∧ Valid scope rest

/-- The references that fit a declaration are the qubits it introduces. -/
theorem Declaration.offers_iff {d : Declaration} {q : Qubit} : d.Offers q ↔ q ∈ d.qubits := by
  obtain ⟨name, size⟩ := d
  obtain ⟨register, index⟩ := q
  cases size with
  | none =>
    simp only [Offers, qubits, List.mem_singleton, Qubit.mk.injEq]
    grind
  | some n =>
    simp only [Offers, qubits, List.mem_map, List.mem_range, Qubit.mk.injEq]
    grind

theorem Qubit.resolves_iff {scope : List Declaration} {q : Qubit} :
    q.Resolves scope ↔ q ∈ scope.flatMap Declaration.qubits := by
  simp only [Resolves, Declaration.offers_iff, List.mem_flatMap]

namespace Program

variable {scope : List Declaration} {p q : Program}

theorem declarations_declare {d : Declaration} :
    declarations (.declare d :: p) = d :: p.declarations :=
  rfl

theorem declarations_apply {a : Application} : declarations (.apply a :: p) = p.declarations :=
  rfl

theorem applications_apply {a : Application} : applications (.apply a :: p) = a :: p.applications :=
  rfl

theorem valid_append :
    Valid scope (p ++ q) ↔ Valid scope p ∧ Valid (scope ++ p.declarations) q := by
  induction p generalizing scope with
  | nil => simp [Valid, declarations]
  | cons i rest ih =>
    cases i with
    | declare d =>
      rw [List.cons_append, Valid, Valid, ih, and_assoc, declarations_declare, List.append_assoc]
      rfl
    | apply a =>
      rw [List.cons_append, Valid, Valid, ih, and_assoc, declarations_apply]

theorem Valid.targets_ne_nil (h : Valid scope p) : ∀ a ∈ p.applications, a.targets ≠ [] := by
  induction p generalizing scope with
  | nil => simp [applications]
  | cons i rest ih =>
    cases i with
    | declare d => exact ih h.2
    | apply a =>
      rw [applications_apply, List.forall_mem_cons]
      exact ⟨h.1.targets_ne_nil, ih h.2⟩

end Program

/-! ### Programs of the grammar -/

namespace Source

namespace Grammar

variable {scope : List Declaration} {blockGuards : List Guard} {ws : List Token}

theorem Reference.resolves {q : Qubit} (h : Reference scope ws q) : q.Resolves scope := by
  cases h with
  | single hd hsize => exact ⟨_, hd, rfl, .inl ⟨hsize, rfl⟩⟩
  | slot hd hsize hindex => exact ⟨_, hd, rfl, .inr ⟨_, _, hsize, rfl, hindex⟩⟩

theorem Separated.exists_item {α : Type} {item : List Token → α → Prop} {as : List α}
    (h : Separated item ws as) {a : α} (ha : a ∈ as) : ∃ vs, vs ⊆ ws ∧ item vs a := by
  induction h with
  | one h =>
    rw [List.mem_singleton.mp ha]
    exact ⟨_, List.Subset.refl _, h⟩
  | more h _ ih =>
    rcases List.mem_cons.mp ha with rfl | ha
    · exact ⟨_, List.subset_append_left _ _, h⟩
    · obtain ⟨vs, hvs, hitem⟩ := ih ha
      exact ⟨vs, List.subset_append_of_subset_right _ (List.subset_cons_of_subset _ hvs), hitem⟩

theorem Named.takes {name : String} {params : List Angle} {targets : Nat} {gate : Gate}
    (h : Named name params targets gate) : gate.Takes targets := by
  cases h with
  | standard hname => exact (StandardGate.arity_eq_targetCount _).symm
  | custom hname htargets => exact ⟨rfl, Nat.le_pred_of_lt htargets, hname⟩

theorem Call.valid {a : Application} (h : Call scope blockGuards ws a)
    (hblock : ∀ c ∈ blockGuards, c.qubit.Resolves scope) : a.Valid scope := by
  obtain ⟨-, -, hoperands, -, -, htargets, hgate⟩ := h
  have hresolves {q : Qubit} (hq : q ∈ _) : q.Resolves scope :=
    (hoperands.exists_item hq).elim fun _ hitem ↦ hitem.2.resolves
  refine ⟨htargets, hgate.takes, fun q hq ↦ hresolves (List.mem_append_right _ hq), fun c hc ↦ ?_⟩
  rcases List.mem_append.mp hc with hc | hc
  · exact hblock c hc
  · exact hresolves (List.mem_append_left _ (List.mem_map_of_mem hc))

theorem Declares.valid {d : Declaration} (h : Declares scope ws d) : d.Valid scope := by
  cases h with
  | single hfresh => exact ⟨hfresh, nofun⟩
  | register hfresh hpos hmax =>
    exact ⟨hfresh, fun size hsize ↦ Option.some.inj hsize ▸ ⟨hpos, Nat.le_pred_of_lt hmax⟩⟩

/-- Statements of the grammar obey the static rules, where the guards of the blocks around them do.
-/
theorem Statements.valid {is : List Instruction} (h : Statements scope blockGuards ws is)
    (hblock : ∀ c ∈ blockGuards, c.qubit.Resolves scope) : Program.Valid scope is := by
  induction h with
  | nil => trivial
  | empty _ ih => exact ih hblock
  | inclusion _ _ ih => exact ih hblock
  | declaration hd _ ih => exact ⟨hd.valid, ih nofun⟩
  | call ha _ ih => exact ⟨ha.valid hblock, ih hblock⟩
  | block hq hbody _ ihbody ih =>
    rw [Program.valid_append, hbody.declarations_eq_nil (by simp), List.append_nil]
    refine ⟨ihbody fun c hc ↦ ?_, ih hblock⟩
    rcases List.mem_append.mp hc with hc | hc
    · exact hblock c hc
    · rw [List.mem_singleton.mp hc]
      exact hq.resolves

theorem Text.valid {p : Program} (h : Text ws p) : p.Valid [] := by
  obtain ⟨-, hbody⟩ := h
  exact hbody.valid nofun

end Grammar

/-- What is read is a program of the grammar. -/
theorem exists_text_of_parse {source : String} {p : Program} (h : parse source = .ok p) :
    ∃ ts : Tokens,
      (tokenize source).mapM (fun piece ↦ piece.mapError SourceFault.lexical) = .ok ts ∧
        Grammar.Text (ts.map Located.token) p := by
  obtain ⟨ts, hts, hparse⟩ := Run.bind_eq_ok.mp h
  exact ⟨ts, hts, text_of_parseTokens hparse⟩

theorem valid_of_parse {source : String} {p : Program} (h : parse source = .ok p) : p.Valid [] := by
  obtain ⟨ts, -, htext⟩ := exists_text_of_parse h
  exact htext.valid

end Source

end Peephole
