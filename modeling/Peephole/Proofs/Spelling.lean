import Peephole.Proofs.Lexing
import Peephole.Proofs.Validity

/-!
# Names and numbers of programs

What the words of a text say about the program they stand for: its names are identifiers of the text
(`Spelled`), a minus in front of a number is part of the number (`Angle.Folded`), and no application
has more guards than the text has words.
-/

set_option autoImplicit false
set_option relaxedAutoImplicit false

namespace Peephole

open Source

/-! ### Angles -/

namespace Angle

/-- The numbers in an angle. -/
def constants : Angle → List Float
  | constant v => [v]
  | symbol _ => []
  | pi => []
  | neg e => e.constants
  | add a b => a.constants ++ b.constants
  | sub a b => a.constants ++ b.constants
  | mul a b => a.constants ++ b.constants
  | div a b => a.constants ++ b.constants

/-- The names in an angle. -/
def symbols : Angle → List String
  | constant _ => []
  | symbol name => [name]
  | pi => []
  | neg e => e.symbols
  | add a b => a.symbols ++ b.symbols
  | sub a b => a.symbols ++ b.symbols
  | mul a b => a.symbols ++ b.symbols
  | div a b => a.symbols ++ b.symbols

/-- An angle in which no minus stands in front of a number. -/
def Folded : Angle → Prop
  | constant _ => True
  | symbol _ => True
  | pi => True
  | neg e => negated e = neg e ∧ e.Folded
  | add a b => a.Folded ∧ b.Folded
  | sub a b => a.Folded ∧ b.Folded
  | mul a b => a.Folded ∧ b.Folded
  | div a b => a.Folded ∧ b.Folded

variable {e a b : Angle}

theorem folded_negated (h : e.Folded) : (negated e).Folded := by
  cases e with
  | constant v => trivial
  | symbol name => exact ⟨rfl, h⟩
  | pi => exact ⟨rfl, h⟩
  | neg e => exact ⟨rfl, h⟩
  | add a b => exact ⟨rfl, h⟩
  | sub a b => exact ⟨rfl, h⟩
  | mul a b => exact ⟨rfl, h⟩
  | div a b => exact ⟨rfl, h⟩

theorem folded_combine (op : Operator) : (op.combine a b).Folded ↔ a.Folded ∧ b.Folded := by
  cases op <;> rfl

theorem symbols_negated (e : Angle) : (negated e).symbols = e.symbols := by
  cases e <;> rfl

theorem symbols_combine (op : Operator) : (op.combine a b).symbols = a.symbols ++ b.symbols := by
  cases op <;> rfl

theorem constants_combine (op : Operator) :
    (op.combine a b).constants = a.constants ++ b.constants := by
  cases op <;> rfl

end Angle

namespace Source.Grammar

variable {level : Nat} {ws : List Token} {e : Angle} {N : String → Prop}

theorem Expression.folded (h : Expression level ws e) : e.Folded := by
  induction h using Expression.byOperator with
  | operand h => cases h <;> trivial
  | parens _ ih => exact ih
  | minus _ ih => exact Angle.folded_negated ih
  | binary op _ _ ihleft ihright => exact (Angle.folded_combine op).mpr ⟨ihleft, ihright⟩
  | lower _ ih => exact ih

/-- The symbols of an angle are identifiers of its words. -/
theorem Expression.symbols (h : Expression level ws e)
    (hws : ∀ name, .identifier name ∈ ws → N name) :
    ∀ name ∈ e.symbols, N name := by
  induction h using Expression.byOperator with
  | operand h =>
    cases h with
    | number => exact nofun
    | pi => exact nofun
    | symbol name => simpa [Angle.symbols] using hws
  | parens _ ih => exact ih fun name hname ↦ hws name (by simp [hname])
  | minus _ ih =>
    rw [Angle.symbols_negated]
    exact ih fun name hname ↦ hws name (by simp [hname])
  | binary op _ _ ihleft ihright =>
    rw [Angle.symbols_combine, List.forall_mem_append]
    exact ⟨ihleft fun name hname ↦ hws name (by simp [hname]),
      ihright fun name hname ↦ hws name (by simp [hname])⟩
  | lower _ ih => exact ih hws

end Source.Grammar

/-! ### Programs -/

/-- The angles of a program. -/
def Program.angles (p : Program) : List Angle :=
  p.applications.flatMap fun a ↦ a.gate.params

/-- The numbers of a program. -/
def Program.constants (p : Program) : List Float :=
  p.angles.flatMap Angle.constants

/-- A program whose names can be written. -/
structure Program.Spelled (p : Program) : Prop where
  declared : ∀ d ∈ p.declarations, IsName d.name
  gates : ∀ a ∈ p.applications, IsName a.gate.name
  symbols : ∀ θ ∈ p.angles, ∀ name ∈ θ.symbols, IsName name

theorem StandardGate.isName_name (g : StandardGate) : IsName g.name := by
  cases g <;> (dsimp only [name]; decide)

namespace Source.Grammar

variable {scope : List Declaration} {blockGuards : List Guard} {ws : List Token} {p : Program}
  {a : Application}

/-- Every application of a program is a call of its text, with the guards of the blocks around it.
-/
theorem Statements.exists_call (h : Statements scope blockGuards ws p) (ha : a ∈ p.applications) :
    ∃ scope' blockGuards' vs, Call scope' blockGuards' vs a ∧ vs ⊆ ws ∧
      blockGuards'.length + vs.length ≤ blockGuards.length + ws.length := by
  induction h with
  | nil => cases ha
  | empty _ ih =>
    obtain ⟨scope', blockGuards', vs, hcall, hvs, hlength⟩ := ih ha
    refine ⟨scope', blockGuards', vs, hcall, List.subset_cons_of_subset _ hvs, ?_⟩
    rw [List.length_cons]
    omega
  | inclusion _ _ ih =>
    obtain ⟨scope', blockGuards', vs, hcall, hvs, hlength⟩ := ih ha
    refine ⟨scope', blockGuards', vs, hcall, fun w hw ↦ by simp [hvs hw], ?_⟩
    simp only [List.length_cons]
    omega
  | declaration _ _ ih =>
    obtain ⟨scope', blockGuards', vs, hcall, hvs, hlength⟩ := ih ha
    refine ⟨scope', blockGuards', vs, hcall, List.subset_append_of_subset_right _ hvs, ?_⟩
    rw [List.length_append]
    omega
  | call hcall _ ih =>
    rw [Program.applications_apply] at ha
    rcases List.mem_cons.mp ha with rfl | ha
    · refine ⟨_, _, _, hcall, List.subset_append_left _ _, ?_⟩
      rw [List.length_append]
      omega
    · obtain ⟨scope', blockGuards', vs, hcall, hvs, hlength⟩ := ih ha
      refine ⟨scope', blockGuards', vs, hcall, List.subset_append_of_subset_right _ hvs, ?_⟩
      rw [List.length_append]
      omega
  | block _ _ _ ihbody ih =>
    rw [Program.applications, List.filterMap_append] at ha
    rcases List.mem_append.mp ha with ha | ha
    · obtain ⟨scope', blockGuards', vs, hcall, hvs, hlength⟩ := ihbody ha
      refine ⟨scope', blockGuards', vs, hcall, fun w hw ↦ by simp [hvs hw], ?_⟩
      simp only [List.length_append, List.length_cons, List.length_nil] at hlength ⊢
      omega
    · obtain ⟨scope', blockGuards', vs, hcall, hvs, hlength⟩ := ih ha
      refine ⟨scope', blockGuards', vs, hcall, fun w hw ↦ by simp [hvs hw], ?_⟩
      simp only [List.length_append, List.length_cons]
      omega

theorem Statements.exists_declares (h : Statements scope blockGuards ws p) {d : Declaration}
    (hd : d ∈ p.declarations) : ∃ scope' vs, Declares scope' vs d ∧ vs ⊆ ws := by
  induction h with
  | nil => cases hd
  | empty _ ih =>
    obtain ⟨scope', vs, hdeclares, hvs⟩ := ih hd
    exact ⟨scope', vs, hdeclares, List.subset_cons_of_subset _ hvs⟩
  | inclusion _ _ ih =>
    obtain ⟨scope', vs, hdeclares, hvs⟩ := ih hd
    exact ⟨scope', vs, hdeclares, fun w hw ↦ by simp [hvs hw]⟩
  | declaration hdeclares _ ih =>
    rw [Program.declarations_declare] at hd
    rcases List.mem_cons.mp hd with rfl | hd
    · exact ⟨_, _, hdeclares, List.subset_append_left _ _⟩
    · obtain ⟨scope', vs, hdeclares, hvs⟩ := ih hd
      exact ⟨scope', vs, hdeclares, List.subset_append_of_subset_right _ hvs⟩
  | call _ _ ih =>
    obtain ⟨scope', vs, hdeclares, hvs⟩ := ih hd
    exact ⟨scope', vs, hdeclares, List.subset_append_of_subset_right _ hvs⟩
  | block _ hbody _ _ ih =>
    rw [Program.declarations, List.filterMap_append] at hd
    rcases List.mem_append.mp hd with hd | hd
    · rw [← Program.declarations, hbody.declarations_eq_nil (by simp)] at hd
      cases hd
    · obtain ⟨scope', vs, hdeclares, hvs⟩ := ih hd
      exact ⟨scope', vs, hdeclares, fun w hw ↦ by simp [hvs hw]⟩

theorem Parameters.exists_expression {es : List Angle} (h : Parameters ws es) {e : Angle}
    (he : e ∈ es) :
    ∃ vs, vs ⊆ ws ∧ Expression 0 vs e := by
  cases h with
  | absent => cases he
  | empty => cases he
  | listed h =>
    obtain ⟨vs, hvs, hexpression⟩ := h.exists_item he
    exact ⟨vs, fun w hw ↦ by simp [hvs hw], hexpression⟩

theorem Named.params {name : String} {params : List Angle} {targets : Nat} {gate : Gate}
    (h : Named name params targets gate) : gate.params = params := by
  cases h <;> rfl

theorem Named.isName {name : String} {params : List Angle} {targets : Nat} {gate : Gate}
    (h : Named name params targets gate) (hname : IsName name) : IsName gate.name := by
  cases h with
  | standard _ => exact StandardGate.isName_name _
  | custom _ _ => exact hname

/-- The angles of a call are angles of the grammar among its words. -/
theorem Call.exists_expression (h : Call scope blockGuards ws a) {e : Angle}
    (he : e ∈ a.gate.params) :
    ∃ vs, vs ⊆ ws ∧ Expression 0 vs e := by
  obtain ⟨-, hparams, -, -, -, -, hgate⟩ := h
  rw [hgate.params] at he
  obtain ⟨vs, hvs, hexpression⟩ := hparams.exists_expression he
  exact ⟨vs, fun w hw ↦ by simp [hvs hw], hexpression⟩

theorem Call.isName (h : Call scope blockGuards ws a)
    (hws : ∀ name, .identifier name ∈ ws → IsName name) : IsName a.gate.name := by
  obtain ⟨-, -, -, -, -, -, hgate⟩ := h
  exact hgate.isName (hws _ (by simp))

theorem Separated.length_le {α : Type} {item : List Token → α → Prop} {as : List α}
    (h : Separated item ws as) (hitem : ∀ ws a, item ws a → 1 ≤ ws.length) :
    as.length ≤ ws.length := by
  induction h with
  | one h => exact hitem _ _ h
  | more h _ ih =>
    have := hitem _ _ h
    simp only [List.length_cons, List.length_append]
    omega

/-- Every guard takes a word: an operand, or a block around the call. -/
theorem Call.length_guards_le (h : Call scope blockGuards ws a) :
    a.guards.length ≤ blockGuards.length + ws.length := by
  obtain ⟨-, -, hoperands, -, -, -, -⟩ := h
  have hlength := hoperands.length_le fun ws q hq ↦ by cases hq <;> simp
  simp only [List.length_append, List.length_map, List.length_cons] at hlength ⊢
  omega

theorem Declares.isName {d : Declaration} (h : Declares scope ws d)
    (hws : ∀ name, .identifier name ∈ ws → IsName name) : IsName d.name := by
  cases h <;> exact hws _ (by simp)

theorem Text.exists_expression (h : Text ws p) {θ : Angle} (hθ : θ ∈ p.angles) :
    ∃ vs, vs ⊆ ws ∧ Expression 0 vs θ := by
  obtain ⟨-, hbody⟩ := h
  obtain ⟨a, ha, hθ⟩ := List.mem_flatMap.mp hθ
  obtain ⟨scope', blockGuards', vs, hcall, hvs, -⟩ := hbody.exists_call ha
  obtain ⟨us, hus, hexpression⟩ := hcall.exists_expression hθ
  exact ⟨us, fun w hw ↦ List.mem_append_right _ (hvs (hus hw)), hexpression⟩

theorem Text.spelled (h : Text ws p) (hws : ∀ name, .identifier name ∈ ws → IsName name) :
    p.Spelled := by
  refine ⟨fun d hd ↦ ?_, fun a ha ↦ ?_, fun θ hθ ↦ ?_⟩
  · obtain ⟨-, hbody⟩ := h
    obtain ⟨scope', vs, hdeclares, hvs⟩ := hbody.exists_declares hd
    exact hdeclares.isName fun name hname ↦ hws name (List.mem_append_right _ (hvs hname))
  · obtain ⟨-, hbody⟩ := h
    obtain ⟨scope', blockGuards', vs, hcall, hvs, -⟩ := hbody.exists_call ha
    exact hcall.isName fun name hname ↦ hws name (List.mem_append_right _ (hvs hname))
  · obtain ⟨us, hus, hexpression⟩ := h.exists_expression hθ
    exact hexpression.symbols fun name hname ↦ hws name (hus hname)

theorem Text.length_guards_le (h : Text ws p) (ha : a ∈ p.applications) :
    a.guards.length ≤ ws.length := by
  obtain ⟨-, hbody⟩ := h
  obtain ⟨scope', blockGuards', vs, hcall, -, hlength⟩ := hbody.exists_call ha
  have := hcall.length_guards_le
  rw [List.length_append]
  simp only [List.length_nil] at hlength
  omega

end Source.Grammar

end Peephole
