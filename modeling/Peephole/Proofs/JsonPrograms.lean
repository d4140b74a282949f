import Peephole.Program.Interchange
import Peephole.Proofs.JsonText
import Peephole.Proofs.Spelling

/-!
# Programs as JSON text

A program is written as JSON and read again. What is nested too deep is lost on the way, and then
the whole program is refused: `Json.Recovers` says for one kind of value that it is decoded exactly
if nothing of it was truncated. Records, variants and lists keep this (`recovers_object`,
`recovers_variant`, `recovers_list`), so it holds of angles, gates and qubits, and in the end of
programs (`Program.recovers`, `Program.json_round_trip`).
-/

set_option autoImplicit false
set_option relaxedAutoImplicit false

namespace Peephole

open Json (maxNumber)

/-! ### Truncated values -/

namespace Json

variable {α β : Type} {decode : Json → Option α} {j : Json} {a : α} {d : Nat}
  {items : List Json} {members : List (String × Json)}

theorem foldr_max_le {l : List Nat} : l.foldr max 0 ≤ d ↔ ∀ n ∈ l, n ≤ d := by
  induction l with
  | nil => simp
  | cons n l ih => rw [List.foldr_cons, Nat.max_le, ih, List.forall_mem_cons]

theorem depth_array_le : (array items).depth ≤ d + 1 ↔ ∀ j ∈ items, j.depth ≤ d := by
  rw [depth, Nat.succ_le_succ_iff, foldr_max_le, List.forall_mem_map]

theorem depth_object_le : (object members).depth ≤ d + 1 ↔ ∀ m ∈ members, m.2.depth ≤ d := by
  rw [depth, Nat.succ_le_succ_iff, foldr_max_le, List.forall_mem_map]

theorem depth_array_pos : ¬ (array items).depth ≤ 0 := by
  rw [depth]
  exact Nat.not_succ_le_zero _

theorem depth_object_pos : ¬ (object members).depth ≤ 0 := by
  rw [depth]
  exact Nat.not_succ_le_zero _

theorem truncate_eq_self (h : j.depth = 0) (d : Nat) : j.truncate d = j := by
  cases j with
  | array items => exact absurd (Nat.le_of_eq h) depth_array_pos
  | object members => exact absurd (Nat.le_of_eq h) depth_object_pos
  | _ => cases d <;> rfl

/-- The names of the members of a record. -/
def names : Json → List String
  | object members => members.map Prod.fst
  | _ => []

/-- A value is decoded if nothing of it was truncated, and is refused otherwise. -/
def Recovers (decode : Json → Option α) (j : Json) (a : α) : Prop :=
  ∀ d, decode (j.truncate d) = if j.depth ≤ d then some a else none

theorem recovers_leaf (hdepth : j.depth = 0) (h : decode j = some a) : Recovers decode j a := by
  intro d
  rw [truncate_eq_self hdepth, h, hdepth, if_pos (Nat.zero_le d)]

theorem recovers_real {x : Float} : Recovers float? (real x) x :=
  recovers_leaf (by simp [depth]) rfl

theorem recovers_string {s : String} (h : decode (string s) = some a) :
    Recovers decode (string s) a :=
  recovers_leaf (by simp [depth]) h

theorem recovers_list {encode : α → Json} {l : List α}
    (h : ∀ a ∈ l, Recovers decode (encode a) a) :
    Recovers (list? decode) (array (l.map encode)) l := by
  intro d
  cases d with
  | zero =>
    rw [if_neg depth_array_pos, truncate]
    rfl
  | succ d =>
    simp only [truncate, list?, depth_array_le, List.forall_mem_map]
    induction l with
    | nil => rfl
    | cons a l ih =>
      rw [List.forall_mem_cons] at h
      rw [List.map_cons, List.map_cons, List.mapM_cons, h.1 d, ih h.2]
      simp only [List.forall_mem_cons]
      by_cases hall : (encode a).depth ≤ d ∧ ∀ a ∈ l, (encode a).depth ≤ d
      · rw [if_pos hall, if_pos hall.1, if_pos hall.2]
        rfl
      · rw [if_neg hall]
        rcases not_and_or.mp hall with ha | hl
        · rw [if_neg ha]
          rfl
        · rw [if_neg hl]
          cases (if (encode a).depth ≤ d then some a else none) <;> rfl

/-- Records and variants are refused if they are truncated themselves. -/
theorem recovers_object (hzero : decode unreadable = none)
    (hsucc : ∀ d, decode (object (members.map fun m ↦ (m.1, m.2.truncate d))) =
      if ∀ m ∈ members, m.2.depth ≤ d then some a else none) :
    Recovers decode (object members) a := by
  intro d
  cases d with
  | zero => rw [if_neg depth_object_pos, truncate, hzero]
  | succ d =>
    rw [truncate, hsucc]
    simp only [depth_object_le]

/-- A variant is decoded if its content is. -/
theorem recovers_variant {outer : Json → Option β} {name : String} {f : α → β}
    (hzero : outer unreadable = none)
    (hcontent : ∀ d, outer (object [(name, j.truncate d)]) = (decode (j.truncate d)).map f)
    (h : Recovers decode j a) : Recovers outer (object [(name, j)]) (f a) := by
  refine recovers_object hzero fun d ↦ ?_
  rw [List.map_singleton, hcontent, h d]
  simp only [List.forall_mem_singleton]
  split <;> rfl

end Json

/-! ### Angles -/

namespace Angle

variable {a b e : Angle} {d : Nat}

theorem truncate_ne_array (e : Angle) (d : Nat) (items : List Json) :
    e.toJson.truncate d ≠ .array items := by
  intro h
  cases e <;> cases d <;> cases h

theorem ofJson?_neg {j : Json} (h : ∀ items, j ≠ .array items) :
    ofJson? (.object [("Neg", j)]) = (ofJson? j).map neg := by
  rw [ofJson?]
  · rfl
  · rintro a b rfl
    exact h _ rfl

theorem recovers_binary {name : String} {op : Angle → Angle → Angle}
    (hop : operation? name = some op) (ha : Json.Recovers ofJson? a.toJson a)
    (hb : Json.Recovers ofJson? b.toJson b) :
    Json.Recovers ofJson? (.object [(name, .array [a.toJson, b.toJson])]) (op a b) := by
  refine Json.recovers_object rfl fun d ↦ ?_
  rw [List.map_singleton]
  simp only [List.forall_mem_singleton]
  cases d with
  | zero =>
    rw [if_neg Json.depth_array_pos, Json.truncate]
    unfold operation? at hop
    split at hop
    case h_5 => cases hop
    all_goals rfl
  | succ d =>
    simp only [Json.depth_array_le, List.forall_mem_cons]
    change (operation? name).bind (fun op ↦ (ofJson? (a.toJson.truncate d)).bind
      fun x ↦ (ofJson? (b.toJson.truncate d)).bind fun y ↦ some (op x y)) = _
    rw [hop, ha d, hb d]
    by_cases ha : a.toJson.depth ≤ d <;> by_cases hb : b.toJson.depth ≤ d <;> simp [ha, hb]

theorem depth_neg_iterate (n : Nat) (e : Angle) :
    (neg^[n] e).toJson.depth = e.toJson.depth + n := by
  induction n with
  | zero => rfl
  | succ n ih =>
    rw [Function.iterate_succ_apply', ← Nat.add_assoc, ← ih]
    change (Json.object [("Neg", _)]).depth = _
    rw [Json.depth]
    simp

theorem constants_neg_iterate (n : Nat) (e : Angle) : (neg^[n] e).constants = e.constants := by
  induction n with
  | zero => rfl
  | succ n ih =>
    rw [Function.iterate_succ_apply']
    exact ih

theorem recovers (e : Angle) : Json.Recovers ofJson? e.toJson e := by
  induction e with
  | constant v => exact Json.recovers_variant rfl (fun d ↦ by cases d <;> rfl) Json.recovers_real
  | symbol name =>
    have hname : Json.Recovers Json.string? (.string name) name := Json.recovers_string rfl
    exact Json.recovers_variant rfl (fun d ↦ by cases d <;> rfl) hname
  | pi => exact Json.recovers_string rfl
  | neg e ih => exact Json.recovers_variant rfl (fun d ↦ ofJson?_neg (e.truncate_ne_array d)) ih
  | add a b iha ihb => exact recovers_binary rfl iha ihb
  | sub a b iha ihb => exact recovers_binary rfl iha ihb
  | mul a b iha ihb => exact recovers_binary rfl iha ihb
  | div a b iha ihb => exact recovers_binary rfl iha ihb

end Angle

/-! ### Standard gates -/

theorem StandardGate.recovers (g : StandardGate) : Json.Recovers ofJson? g.toJson g := by
  have hrotation {tag : String} {f : Angle → StandardGate} (hf : tagged? tag = some f) (θ : Angle) :
      Json.Recovers ofJson? (.object [(tag, θ.toJson)]) (f θ) := by
    refine Json.recovers_variant rfl (fun d ↦ ?_) θ.recovers
    simp only [ofJson?, Json.variant?, Option.bind_eq_bind, Option.bind_some, hf]
    exact (Option.map_eq_bind ..).symm
  have hplain (g : StandardGate) (hg : unparameterized.find? (·.tag = g.tag) = some g)
      (htag : tagged? g.tag = none) : Json.Recovers ofJson? (.string g.tag) g := by
    intro d
    simp [ofJson?, Json.truncate_eq_self, Json.depth, Json.variant?, Json.isVoid, htag, hg]
  cases g with
  | p θ => exact hrotation rfl θ
  | rx θ => exact hrotation rfl θ
  | ry θ => exact hrotation rfl θ
  | rz θ => exact hrotation rfl θ
  | _ => exact hplain _ rfl rfl

/-! ### Qubits and declarations -/

/-- The index of a qubit is within the bound of the format. -/
def Qubit.Bounded (q : Qubit) : Prop :=
  ∀ i, q.index = some i → i ≤ maxNumber

theorem Qubit.recovers {q : Qubit} (h : q.Bounded) : Json.Recovers ofJson? q.toJson q := by
  obtain ⟨register, index⟩ := q
  refine Json.recovers_object rfl fun d ↦ ?_
  cases index with
  | none =>
    simp [ofJson?, Json.fields?, Json.required, Json.orDefault, Json.string?,
      Json.truncate_eq_self, Json.depth]
  | some i =>
    have hi : i ≤ maxNumber := h i rfl
    simp [ofJson?, Json.fields?, Json.required, Json.orDefault, Json.string?,
      Json.truncate_eq_self, Json.depth, Json.nullable?, Json.nat?, hi]

/-- The size of a register is within the bound of the format. -/
def Declaration.Bounded (d : Declaration) : Prop :=
  ∀ n, d.size = some n → n ≤ maxNumber

theorem Declaration.recovers {d : Declaration} (h : d.Bounded) :
    Json.Recovers ofJson? d.toJson d := by
  obtain ⟨name, size⟩ := d
  refine Json.recovers_object rfl fun d ↦ ?_
  cases size with
  | none =>
    simp [ofJson?, Json.fields?, Json.required, Json.orDefault, Json.string?,
      Json.truncate_eq_self, Json.depth]
  | some n =>
    have hn : n ≤ maxNumber := h n rfl
    simp [ofJson?, Json.fields?, Json.required, Json.orDefault, Json.string?,
      Json.truncate_eq_self, Json.depth, Json.nullable?, Json.nat?, hn]

/-! ### Gates -/

/-- The arity of a custom gate is within the bound of the format. -/
def Gate.Bounded : Gate → Prop
  | standard _ => True
  | custom _ arity _ => arity ≤ maxNumber

theorem Gate.recovers_custom {name : String} {arity : Nat} {params : List Angle}
    {optional : List (String × Json)} (h : arity ≤ maxNumber)
    (hoptional : optional =
      if params.isEmpty then [] else [("params", .array (params.map Angle.toJson))]) :
    Json.Recovers customOfJson?
      (.object ([("name", .string name), ("num_qubits", .whole arity)] ++ optional))
      (custom name arity params) := by
  refine Json.recovers_object rfl fun d ↦ ?_
  subst hoptional
  cases params with
  | nil =>
    simp [customOfJson?, Json.fields?, Json.required, Json.orDefault, Json.string?, Json.nat?,
      Json.truncate_eq_self, Json.depth, h]
  | cons θ params =>
    have hlist := Json.recovers_list (l := θ :: params) fun θ _ ↦ θ.recovers
    rw [List.isEmpty_cons, if_neg Bool.false_ne_true]
    generalize Json.array ((θ :: params).map Angle.toJson) = j at hlist ⊢
    simp [customOfJson?, Json.fields?, Json.required, Json.orDefault, Json.string?, Json.nat?,
      Json.truncate_eq_self, Json.depth, h, hlist d]
    split <;> rfl

theorem Gate.recovers {g : Gate} (h : g.Bounded) : Json.Recovers ofJson? g.toJson g := by
  cases g with
  | standard g => exact Json.recovers_variant rfl (fun d ↦ (Option.map_eq_bind ..).symm) g.recovers
  | custom name arity params =>
    exact Json.recovers_variant (f := id) rfl (fun d ↦ Option.map_id'.symm)
      (Gate.recovers_custom h rfl)

theorem Guard.recovers {c : Guard} (h : c.qubit.Bounded) : Json.Recovers ofJson? c.toJson c := by
  refine Json.recovers_object rfl fun d ↦ ?_
  simp [ofJson?, Json.fields?, Json.required, Json.orDefault, Json.bool?,
    Json.truncate_eq_self, Json.depth, Qubit.recovers h d]
  split <;> rfl

/-! ### Programs -/

/-- The numbers of an application are within the bound of the format. -/
structure Application.Bounded (a : Application) : Prop where
  gate : a.gate.Bounded
  targets : ∀ q ∈ a.targets, q.Bounded
  guards : ∀ c ∈ a.guards, c.qubit.Bounded

theorem Application.recovers {a : Application} (h : a.Bounded) :
    Json.Recovers ofJson? a.toJson a := by
  obtain ⟨gate, targets, guards⟩ := a
  have hgate := Gate.recovers h.gate
  have htargets := Json.recovers_list fun q hq ↦ Qubit.recovers (h.targets q hq)
  have hguards := Json.recovers_list fun c hc ↦ Guard.recovers (h.guards c hc)
  refine Json.recovers_object rfl fun d ↦ ?_
  dsimp only at hgate htargets hguards ⊢
  generalize gate.toJson = j at hgate ⊢
  generalize Json.array (targets.map Qubit.toJson) = k at htargets ⊢
  cases guards with
  | nil =>
    by_cases hj : j.depth ≤ d <;> by_cases hk : k.depth ≤ d <;>
      simp [ofJson?, Json.fields?, Json.required, Json.orDefault, hgate d, htargets d, hj, hk]
  | cons c guards =>
    rw [List.isEmpty_cons, if_neg Bool.false_ne_true]
    generalize Json.array ((c :: guards).map Guard.toJson) = l at hguards ⊢
    by_cases hj : j.depth ≤ d <;> by_cases hk : k.depth ≤ d <;> by_cases hl : l.depth ≤ d <;>
      simp [ofJson?, Json.fields?, Json.required, Json.orDefault, hgate d, htargets d, hguards d,
        hj, hk, hl]

/-- The numbers of an instruction are within the bound of the format. -/
def Instruction.Bounded : Instruction → Prop
  | declare d => d.Bounded
  | apply a => a.Bounded

theorem Instruction.recovers {i : Instruction} (h : i.Bounded) :
    Json.Recovers ofJson? i.toJson i := by
  cases i with
  | declare d =>
    exact Json.recovers_variant rfl (fun d ↦ (Option.map_eq_bind ..).symm) (Declaration.recovers h)
  | apply a =>
    exact Json.recovers_variant rfl (fun d ↦ (Option.map_eq_bind ..).symm) (Application.recovers h)

theorem Program.recovers {p : Program} (h : ∀ i ∈ p, i.Bounded) :
    Json.Recovers ofJson? p.toJson p :=
  Json.recovers_list fun i hi ↦ Instruction.recovers (h i hi)

/-! ### Legible programs -/

theorem Json.legible_variant {name : String} {j : Json} (h : j.Legible) :
    (Json.object [(name, j)]).Legible :=
  .object (List.forall_mem_singleton.mpr h)

theorem Json.legible_whole {n : Nat} (h : n ≤ maxNumber) : (Json.whole n).Legible :=
  .whole (Nat.le_trans h (by decide))

theorem Angle.legible {e : Angle} (h : ∀ c ∈ e.constants, Json.ReadsBack c) : e.toJson.Legible := by
  have hbinary {name : String} {a b : Json} (ha : a.Legible) (hb : b.Legible) :
      (Json.object [(name, .array [a, b])]).Legible :=
    Json.legible_variant (.array (List.forall_mem_cons.mpr ⟨ha, List.forall_mem_singleton.mpr hb⟩))
  induction e with
  | constant v => exact Json.legible_variant (.real (h v List.mem_cons_self))
  | symbol name => exact Json.legible_variant (.string name)
  | pi => exact .string "Pi"
  | neg e ih => exact Json.legible_variant (ih h)
  | add a b iha ihb | sub a b iha ihb | mul a b iha ihb | div a b iha ihb =>
    rw [constants, List.forall_mem_append] at h
    exact hbinary (iha h.1) (ihb h.2)

theorem Gate.legible {g : Gate} (hg : g.Bounded)
    (h : ∀ θ ∈ g.params, ∀ c ∈ θ.constants, Json.ReadsBack c) : g.toJson.Legible := by
  cases g with
  | standard g =>
    refine Json.legible_variant ?_
    have hplain (g : StandardGate) : (Json.string g.tag).Legible := .string g.tag
    have hrotation {θ : Angle} {tag : String} (hθ : ∀ c ∈ θ.constants, Json.ReadsBack c) :
        (Json.object [(tag, θ.toJson)]).Legible :=
      Json.legible_variant (Angle.legible hθ)
    cases g with
    | p θ | rx θ | ry θ | rz θ => exact hrotation (h θ List.mem_cons_self)
    | _ => exact hplain _
  | custom name arity params =>
    have hparams : (Json.array (params.map Angle.toJson)).Legible :=
      .array (List.forall_mem_map.mpr fun θ hθ ↦ Angle.legible (h θ hθ))
    refine Json.legible_variant (.object ?_)
    rw [List.forall_mem_append, List.forall_mem_cons, List.forall_mem_singleton]
    refine ⟨⟨.string name, Json.legible_whole hg⟩, ?_⟩
    split
    · exact List.forall_mem_nil _
    · exact List.forall_mem_singleton.mpr hparams

theorem Qubit.legible {q : Qubit} (h : q.Bounded) : q.toJson.Legible := by
  refine .object ?_
  rw [List.forall_mem_append, List.forall_mem_singleton]
  refine ⟨.string q.register, ?_⟩
  split
  · next i hi => exact List.forall_mem_singleton.mpr (Json.legible_whole (h i hi))
  · exact List.forall_mem_nil _

theorem Declaration.legible {d : Declaration} (h : d.Bounded) : d.toJson.Legible := by
  refine .object ?_
  rw [List.forall_mem_append, List.forall_mem_singleton]
  refine ⟨.string d.name, ?_⟩
  split
  · next n hn => exact List.forall_mem_singleton.mpr (Json.legible_whole (h n hn))
  · exact List.forall_mem_nil _

theorem Application.legible {a : Application} (ha : a.Bounded)
    (h : ∀ θ ∈ a.gate.params, ∀ c ∈ θ.constants, Json.ReadsBack c) : a.toJson.Legible := by
  have hguard {c : Guard} (hc : c.qubit.Bounded) : c.toJson.Legible :=
    .object (List.forall_mem_cons.mpr
      ⟨Qubit.legible hc, List.forall_mem_singleton.mpr (.bool c.negated)⟩)
  refine .object ?_
  rw [List.forall_mem_append, List.forall_mem_cons, List.forall_mem_singleton]
  refine ⟨⟨Gate.legible ha.gate h, .array ?_⟩, ?_⟩
  · exact List.forall_mem_map.mpr fun q hq ↦ Qubit.legible (ha.targets q hq)
  · split
    · exact List.forall_mem_nil _
    · exact List.forall_mem_singleton.mpr
        (.array (List.forall_mem_map.mpr fun c hc ↦ hguard (ha.guards c hc)))

namespace Program

variable {p : Program}

theorem legible (hp : ∀ i ∈ p, i.Bounded) (h : ∀ c ∈ p.constants, Json.ReadsBack c) :
    p.toJson.Legible := by
  refine .array (List.forall_mem_map.mpr fun i hi ↦ ?_)
  cases i with
  | declare d => exact Json.legible_variant (Declaration.legible (hp _ hi))
  | apply a =>
    refine Json.legible_variant (Application.legible (hp _ hi) fun θ hθ c hc ↦ h c ?_)
    have ha : a ∈ p.applications := List.mem_filterMap.mpr ⟨_, hi, rfl⟩
    exact List.mem_flatMap.mpr ⟨θ, List.mem_flatMap.mpr ⟨a, ha, hθ⟩, hc⟩

/-- A program is read back from its text if it is not nested too deep, and is refused otherwise. -/
theorem parseJson?_write (hp : ∀ i ∈ p, i.Bounded) (h : ∀ c ∈ p.constants, Json.ReadsBack c)
    (style : Json.Style) :
    parseJson? (p.toJson.write style 0) =
      if p.toJson.depth ≤ Json.maxDepth then some p else none := by
  rw [parseJson?, (legible hp h).parse?_write style]
  exact recovers hp Json.maxDepth

/-- A program is read back from its text, in either style, if arrays and objects are nested at most
`Json.maxDepth` deep in it, and is refused otherwise. The numbers of the program have to be within
the bound of the format, and its angles have to be numbers that are read back from their own texts.
What is left out is what is absent or empty. -/
theorem json_round_trip (hp : ∀ i ∈ p, i.Bounded) (h : ∀ c ∈ p.constants, Json.ReadsBack c)
    (style : Json.Style) :
    (parseJson? (p.toJson.write style 0) =
      if p.toJson.depth ≤ Json.maxDepth then some p else none) ∧
    (∀ q : Qubit, "index" ∈ q.toJson.names ↔ q.index ≠ none) ∧
    (∀ d : Declaration, "size" ∈ d.toJson.names ↔ d.size ≠ none) ∧
    (∀ name arity params, ∃ record,
      (Gate.custom name arity params).toJson = .object [("Custom", record)] ∧
        ("params" ∈ record.names ↔ params ≠ [])) ∧
    ∀ a : Application, "guards" ∈ a.toJson.names ↔ a.guards ≠ [] := by
  refine ⟨parseJson?_write hp h style, fun q ↦ ?_, fun d ↦ ?_, fun name arity params ↦ ⟨_, rfl, ?_⟩,
    fun a ↦ ?_⟩
  · cases hindex : q.index <;> simp [Qubit.toJson, Json.names, hindex]
  · cases hsize : d.size <;> simp [Declaration.toJson, Json.names, hsize]
  · cases params <;> simp [Json.names]
  · cases hguards : a.guards <;> simp [Application.toJson, Json.names, hguards]

/-- Names with characters that have to be escaped, and every field that may be left out, once given
and once not. -/
theorem json_round_trip_escaped :
    let q : Qubit := ⟨"\"a\"\n\\\x07é", some 4⟩
    let r : Qubit := ⟨"", none⟩
    let g : Gate := .custom "g" 2 [.add (.constant 0.5) (.neg .pi), .constant (-1e20)]
    let p : Program := [.declare ⟨q.register, some 5⟩, .declare ⟨r.register, none⟩,
      .apply ⟨g, [q, r], [⟨r, false⟩, ⟨q, true⟩]⟩, .apply ⟨.custom "g" 1 [], [r], []⟩]
    (∀ i ∈ p, i.Bounded) ∧ p.constants = [0.5, -1e20] ∧ (∀ c ∈ p.constants, Json.ReadsBack c) ∧
      p.toJson.depth = 9 ∧ parseJson? p.toJson.compact = some p ∧
      parseJson? p.toJson.pretty = some p := by
  intro q r g p
  have hbounded : ∀ i ∈ p, i.Bounded := by
    have hq : q.Bounded := fun i hi ↦ by
      cases hi
      decide
    have hr : r.Bounded := fun _ h ↦ by cases h
    have hdeclared : (⟨q.register, some 5⟩ : Declaration).Bounded := fun n hn ↦ by
      cases hn
      decide
    have hsingle : (⟨r.register, none⟩ : Declaration).Bounded := fun _ h ↦ by cases h
    simp only [p, List.forall_mem_cons]
    exact ⟨hdeclared, hsingle,
      ⟨(by decide : 2 ≤ maxNumber), by simp [hq, hr], by simp [hq, hr]⟩,
      ⟨(by decide : 1 ≤ maxNumber), by simp [hr], List.forall_mem_nil _⟩, List.forall_mem_nil _⟩
  have hconstants : p.constants = [0.5, -1e20] := rfl
  have hreads : ∀ c ∈ p.constants, Json.ReadsBack c := by
    have hlist : ∀ c ∈ ([0.5, -1e20] : List Float),
        (Json.parse? (Json.real c).compact).bind Json.real? = some c := by decide +kernel
    rw [hconstants]
    exact fun c hc ↦ Json.readsBack_iff.mpr (hlist c hc)
  have hdepth : p.toJson.depth = 9 := by
    simp [p, g, q, r, toJson, Instruction.toJson, Declaration.toJson, Application.toJson,
      Gate.toJson, Guard.toJson, Angle.toJson, Qubit.toJson, Json.depth]
  have hread (style : Json.Style) : parseJson? (p.toJson.write style 0) = some p := by
    rw [(json_round_trip hbounded hreads style).1, hdepth, if_pos (by decide)]
  exact ⟨hbounded, hconstants, hreads, hdepth, hread .compact, hread .pretty⟩

/-- An angle with many signs: the text of the program is written, but it cannot be read. -/
theorem json_round_trip_nested :
    let θ : Angle := Angle.neg^[122] (.symbol "t")
    let p : Program := [.declare ⟨"q", none⟩, .apply ⟨.standard (.rz θ), [⟨"q", none⟩], []⟩]
    (∀ i ∈ p, i.Bounded) ∧ p.constants = [] ∧ p.toJson.depth = 128 ∧
      parseJson? p.toJson.compact = none ∧ parseJson? p.toJson.pretty = none := by
  intro θ p
  have hbounded : ∀ i ∈ p, i.Bounded := by
    have hqubit : (⟨"q", none⟩ : Qubit).Bounded := fun _ h ↦ by cases h
    have hsingle : (⟨"q", none⟩ : Declaration).Bounded := fun _ h ↦ by cases h
    refine List.forall_mem_cons.mpr ⟨hsingle, List.forall_mem_singleton.mpr ?_⟩
    exact ⟨trivial, List.forall_mem_singleton.mpr hqubit, List.forall_mem_nil _⟩
  have hconstants : p.constants = [] := by
    have hθ : θ.constants = [] := Angle.constants_neg_iterate 122 _
    simp [p, constants, angles, applications, Instruction.application?, Gate.params,
      StandardGate.params, hθ]
  have hdepth : p.toJson.depth = 128 := by
    have hsymbol : (Angle.symbol "t").toJson.depth = 1 := by simp [Angle.toJson, Json.depth]
    have hθ : θ.toJson.depth = 123 := by rw [Angle.depth_neg_iterate, hsymbol]
    simp [p, toJson, Instruction.toJson, Declaration.toJson, Application.toJson, Gate.toJson,
      StandardGate.toJson, StandardGate.params, Qubit.toJson, Json.depth, hθ]
  have hnone (style : Json.Style) : parseJson? (p.toJson.write style 0) = none := by
    rw [parseJson?_write hbounded (by simp [hconstants]) style, hdepth, if_neg (by decide)]
  exact ⟨hbounded, hconstants, hdepth, hnone .compact, hnone .pretty⟩

end Program

end Peephole
