import Peephole.Json.Parser

/-!
# Reading JSON tokens

`Json.tokens` are the tokens of a value, and `Json.value?` reads the value back from them down to
some depth: what lies deeper is skipped and is unreadable in the result (`Json.truncate`,
`Legible.read`). Skipping steps over the tokens of a whole value wherever it stands
(`Legible.skipped`).

The induction is on `Json.Legible`, which says of every number in a value that it is read back from
its own text. For whole numbers that is a bound. For other numbers it is `ReadsBack`: these are read
in two roundings, and not every number survives that.
-/

set_option autoImplicit false
set_option relaxedAutoImplicit false

namespace Peephole.Json

/-- A result of reading without the bound on the tokens left. -/
def view {α : Type} {ts : List Token} (r : Option (Parsed α ts)) : Option (α × List Token) :=
  r.map Subtype.val

/-! ### Single steps -/

section Steps

variable {depth : Nat} {rest : List Token}

theorem view_value?_plain (j : Json) : view (value? depth (.plain j :: rest)) = some (j, rest) := by
  rw [value?]
  rfl

theorem view_value?_string (content : Option String) :
    view (value? depth (.string content :: rest)) =
      some (content.elim .unreadable .string, rest) := by
  rw [value?]
  rfl

theorem view_value?_emptyArray :
    view (value? depth (.leftBracket :: .rightBracket :: rest)) =
      some (if depth = 0 then .unreadable else .array [], rest) := by
  rw [value?]
  rfl

theorem view_value?_array (h : ∀ ts, rest ≠ .rightBracket :: ts) :
    view (value? (depth + 1) (.leftBracket :: rest)) =
      (view (items? depth rest)).map fun r ↦ (.array r.1, r.2) := by
  rw [value?]
  · rw [if_neg (Nat.succ_ne_zero depth), Nat.add_sub_cancel]
    cases items? depth rest with
    | none => rfl
    | some r => rfl
  · exact h

theorem view_value?_deepArray (h : ∀ ts, rest ≠ .rightBracket :: ts) :
    view (value? 0 (.leftBracket :: rest)) =
      (skipLength? [.array] .firstItem 0 rest).map fun n ↦ (.unreadable, rest.drop n) := by
  rw [value?]
  · rw [if_pos rfl, skip?, view, Option.map_map]
    rfl
  · exact h

theorem view_items? (ts : List Token) : view (items? depth ts) =
    (view (value? depth ts)).bind fun r ↦
      match r.2 with
      | .rightBracket :: rest => some ([r.1], rest)
      | .comma :: rest => (view (items? depth rest)).map fun s ↦ (r.1 :: s.1, s.2)
      | _ => none := by
  rw [items?]
  cases value? depth ts with
  | none => rfl
  | some r =>
    obtain ⟨⟨item, rest⟩, h⟩ := r
    simp only [view, Option.map_some, Option.bind_some, Option.bind_eq_bind]
    cases rest with
    | nil => rfl
    | cons t rest =>
      cases t with
      | comma =>
        change Option.map Subtype.val ((items? depth rest).bind _) =
          Option.map _ (Option.map Subtype.val (items? depth rest))
        cases items? depth rest <;> rfl
      | _ => rfl

theorem view_value?_emptyObject :
    view (value? depth (.leftBrace :: .rightBrace :: rest)) =
      some (if depth = 0 then .unreadable else .object [], rest) := by
  rw [value?]
  rfl

theorem view_value?_object (h : ∀ ts, rest ≠ .rightBrace :: ts) :
    view (value? (depth + 1) (.leftBrace :: rest)) =
      (view (members? depth rest)).map fun r ↦ (ofMembers r.1, r.2) := by
  rw [value?]
  · rw [if_neg (Nat.succ_ne_zero depth), Nat.add_sub_cancel]
    cases members? depth rest with
    | none => rfl
    | some r => rfl
  · exact h

theorem view_value?_deepObject (h : ∀ ts, rest ≠ .rightBrace :: ts) :
    view (value? 0 (.leftBrace :: rest)) =
      (skipLength? [.object] .firstName 0 rest).map fun n ↦ (.unreadable, rest.drop n) := by
  rw [value?]
  · rw [if_pos rfl, skip?, view, Option.map_map]
    rfl
  · exact h

theorem view_members? (name : Option String) (ts : List Token) :
    view (members? depth (.string name :: .colon :: ts)) =
      (view (value? depth ts)).bind fun r ↦
        match r.2 with
        | .rightBrace :: rest => some ([(name, r.1)], rest)
        | .comma :: rest => (view (members? depth rest)).map fun s ↦ ((name, r.1) :: s.1, s.2)
        | _ => none := by
  rw [members?]
  cases value? depth ts with
  | none => rfl
  | some r =>
    obtain ⟨⟨value, rest⟩, h⟩ := r
    simp only [view, Option.map_some, Option.bind_some, Option.bind_eq_bind]
    cases rest with
    | nil => rfl
    | cons t rest =>
      cases t with
      | comma =>
        change Option.map Subtype.val ((members? depth rest).bind _) =
          Option.map _ (Option.map Subtype.val (members? depth rest))
        cases members? depth rest <;> rfl
      | _ => rfl

/-- Only the token of a number is read as a number. -/
theorem eq_of_value? {x : Float} {ts : List Token}
    (h : view (value? depth ts) = some (real x, [])) : ts = [.plain (real x)] := by
  cases ts with
  | nil =>
    rw [value?.eq_def] at h
    cases h
  | cons t ts =>
    cases t with
    | plain j =>
      rw [view_value?_plain, Option.some.injEq, Prod.mk.injEq] at h
      rw [h.1, h.2]
    | string content =>
      rw [view_value?_string] at h
      cases content <;> cases h
    | leftBracket =>
      by_cases hempty : ∃ rest, ts = .rightBracket :: rest
      · obtain ⟨rest, rfl⟩ := hempty
        rw [view_value?_emptyArray] at h
        split at h <;> cases h
      · have hne := not_exists.mp hempty
        cases depth with
        | zero => simp [view_value?_deepArray hne] at h
        | succ depth => simp [view_value?_array hne] at h
    | leftBrace =>
      by_cases hempty : ∃ rest, ts = .rightBrace :: rest
      · obtain ⟨rest, rfl⟩ := hempty
        rw [view_value?_emptyObject] at h
        split at h <;> cases h
      · have hne := not_exists.mp hempty
        cases depth with
        | zero => simp [view_value?_deepObject hne] at h
        | succ depth =>
          rw [view_value?_object hne] at h
          obtain ⟨r, -, hr⟩ := Option.map_eq_some_iff.mp h
          have hobject : ofMembers r.1 = real x := congrArg Prod.fst hr
          unfold ofMembers at hobject
          split at hobject <;> cases hobject
    | _ =>
      rw [value?.eq_def] at h
      cases h

end Steps

/-! ### Nesting -/

/-- How deep arrays and objects are nested in a value. -/
def depth : Json → Nat
  | array items => (items.map depth).foldr max 0 + 1
  | object members => (members.map fun m ↦ depth m.2).foldr max 0 + 1
  | _ => 0
decreasing_by
  · next h => exact Nat.lt_trans (List.sizeOf_lt_of_mem h) (by simp)
  · next h =>
    have hmem := List.sizeOf_lt_of_mem h
    obtain ⟨name, value⟩ := m
    simp only [Prod.mk.sizeOf_spec, object.sizeOf_spec] at hmem ⊢
    omega

/-- A value with everything unreadable that is nested too deep. -/
def truncate : Nat → Json → Json
  | 0, array _ => unreadable
  | d + 1, array items => array (items.map (truncate d))
  | 0, object _ => unreadable
  | d + 1, object members => object (members.map fun m ↦ (m.1, truncate d m.2))
  | _, j => j

/-! ### Tokens of a value -/

mutual

/-- The tokens of a value. -/
def tokens : Json → List Token
  | null | unreadable => [.plain null]
  | bool b => [.plain (bool b)]
  | whole n => [.plain (whole n)]
  | real x => [.plain (real x)]
  | string s => [.string (some s)]
  | array [] => [.leftBracket, .rightBracket]
  | array (item :: items) =>
    .leftBracket :: (tokens item ++ (itemTokens items ++ [.rightBracket]))
  | object [] => [.leftBrace, .rightBrace]
  | object ((name, value) :: members) =>
    .leftBrace :: .string (some name) :: .colon ::
      (tokens value ++ (memberTokens members ++ [.rightBrace]))

/-- The tokens of the further items of an array. -/
def itemTokens : List Json → List Token
  | [] => []
  | item :: items => .comma :: (tokens item ++ itemTokens items)

/-- The tokens of the further members of an object. -/
def memberTokens : List (String × Json) → List Token
  | [] => []
  | (name, value) :: members =>
    .comma :: .string (some name) :: .colon :: (tokens value ++ memberTokens members)

end

/-- The text of a number is read as that number. -/
def ReadsBack (x : Float) : Prop :=
  parse? (real x).compact = some (real x)

/-- The number that is not written as a whole number. -/
def real? : Json → Option Float
  | real x => some x
  | _ => none

/-- Whether a number is read back can be computed. -/
theorem readsBack_iff {x : Float} :
    ReadsBack x ↔ (parse? (real x).compact).bind real? = some x := by
  constructor
  · intro h
    rw [h]
    rfl
  · intro h
    obtain ⟨j, hj, hx⟩ := Option.bind_eq_some_iff.mp h
    cases j <;> cases hx
    exact hj

/-- A value whose numbers are read back from their texts. -/
inductive Legible : Json → Prop
  | null : Legible null
  | bool (b : Bool) : Legible (bool b)
  | whole {n : Nat} (h : n ≤ maxSignificand) : Legible (whole n)
  | real {x : Float} (h : ReadsBack x) : Legible (real x)
  | string (s : String) : Legible (string s)
  | array {items : List Json} (h : ∀ j ∈ items, Legible j) : Legible (array items)
  | object {members : List (String × Json)} (h : ∀ m ∈ members, Legible m.2) :
    Legible (object members)

section Tokens

variable {j item value : Json} {items : List Json} {members : List (String × Json)}
  {frames : List Frame} {used d : Nat} {rest : List Token}

/-! ### Skipping -/

/-- Tokens that are skipped where a value is awaited, within at least one array or object. -/
def Skipped (ts : List Token) : Prop :=
  ∀ frame frames awaited used rest, awaited = .value ∨ awaited = .firstItem →
    skipLength? (frame :: frames) awaited used (ts ++ rest) =
      skipLength? (frame :: frames) .separator (used + ts.length) rest

theorem skip_itemTokens (h : ∀ j ∈ items, Skipped j.tokens) :
    skipLength? (.array :: frames) .separator used (itemTokens items ++ rest) =
      skipLength? (.array :: frames) .separator (used + (itemTokens items).length) rest := by
  induction items generalizing used with
  | nil => rfl
  | cons item items ih =>
    rw [List.forall_mem_cons] at h
    rw [itemTokens, List.cons_append, List.append_assoc]
    change skipLength? (.array :: frames) .value (used + 1) _ = _
    rw [h.1 _ _ _ _ _ (.inl rfl), ih h.2]
    simp only [List.length_cons, List.length_append]
    congr 1
    omega

theorem skip_memberTokens (h : ∀ m ∈ members, Skipped m.2.tokens) :
    skipLength? (.object :: frames) .separator used (memberTokens members ++ rest) =
      skipLength? (.object :: frames) .separator (used + (memberTokens members).length) rest := by
  induction members generalizing used with
  | nil => rfl
  | cons member members ih =>
    obtain ⟨name, value⟩ := member
    rw [List.forall_mem_cons] at h
    rw [memberTokens, List.cons_append, List.cons_append, List.cons_append, List.append_assoc]
    change skipLength? (.object :: frames) .value (used + 1 + 1 + 1) _ = _
    rw [h.1 _ _ _ _ _ (.inl rfl), ih h.2]
    simp only [List.length_cons, List.length_append]
    congr 1
    omega

theorem skipped_array (h : ∀ j ∈ items, Skipped j.tokens) : Skipped (array items).tokens := by
  intro frame frames awaited used rest hawaited
  cases items with
  | nil => rcases hawaited with rfl | rfl <;> rfl
  | cons item items =>
    rw [List.forall_mem_cons] at h
    rw [tokens, List.cons_append, List.append_assoc, List.append_assoc]
    have hopen : skipLength? (frame :: frames) awaited used
        (.leftBracket :: (item.tokens ++ (itemTokens items ++ ([.rightBracket] ++ rest)))) =
        skipLength? (.array :: frame :: frames) .firstItem (used + 1)
          (item.tokens ++ (itemTokens items ++ ([.rightBracket] ++ rest))) := by
      rcases hawaited with rfl | rfl <;> rfl
    rw [hopen, h.1 _ _ _ _ _ (.inr rfl), skip_itemTokens h.2]
    change skipLength? (frame :: frames) .separator (_ + 1) rest = _
    simp only [List.length_cons, List.length_append, List.length_nil]
    congr 1
    omega

theorem skipped_object (h : ∀ m ∈ members, Skipped m.2.tokens) :
    Skipped (object members).tokens := by
  intro frame frames awaited used rest hawaited
  cases members with
  | nil => rcases hawaited with rfl | rfl <;> rfl
  | cons member members =>
    obtain ⟨name, value⟩ := member
    rw [List.forall_mem_cons] at h
    rw [tokens, List.cons_append, List.cons_append, List.cons_append, List.append_assoc,
      List.append_assoc]
    have hopen : skipLength? (frame :: frames) awaited used
        (.leftBrace :: .string (some name) :: .colon ::
          (value.tokens ++ (memberTokens members ++ ([.rightBrace] ++ rest)))) =
        skipLength? (.object :: frame :: frames) .value (used + 1 + 1 + 1)
          (value.tokens ++ (memberTokens members ++ ([.rightBrace] ++ rest))) := by
      rcases hawaited with rfl | rfl <;> rfl
    rw [hopen, h.1 _ _ _ _ _ (.inl rfl), skip_memberTokens h.2]
    change skipLength? (frame :: frames) .separator (_ + 1) rest = _
    simp only [List.length_cons, List.length_append, List.length_nil]
    congr 1
    omega

theorem Legible.skipped (h : j.Legible) : Skipped j.tokens := by
  induction h with
  | array _ ih => exact skipped_array ih
  | object _ ih => exact skipped_object ih
  | _ => rintro frame frames awaited used rest (rfl | rfl) <;> rfl

/-! ### Reading -/

theorem tokens_ne_rightBracket (j : Json) (ts : List Token) :
    ∀ ts', j.tokens ++ ts ≠ .rightBracket :: ts' := by
  intro ts' h
  match j with
  | .null | .unreadable | .bool _ | .whole _ | .real _ | .string _ => cases h
  | .array [] | .array (_ :: _) => cases h
  | .object [] | .object ((_, _) :: _) => cases h

theorem string_ne_rightBrace (content : Option String) (ts : List Token) :
    ∀ ts', Token.string content :: ts ≠ .rightBrace :: ts' := by
  intro ts' h
  cases h

/-- Reading the tokens of a value gives the value, truncated. -/
def Read (j : Json) : Prop :=
  ∀ d rest, view (value? d (j.tokens ++ rest)) = some (j.truncate d, rest)

theorem items?_tokens (hitem : Read item) (hitems : ∀ j ∈ items, Read j) :
    view (items? d (item.tokens ++ (itemTokens items ++ .rightBracket :: rest))) =
      some ((item :: items).map (truncate d), rest) := by
  induction items generalizing item with
  | nil =>
    rw [view_items?, hitem]
    rfl
  | cons next items ih =>
    rw [List.forall_mem_cons] at hitems
    rw [view_items?, hitem, itemTokens, List.cons_append, List.append_assoc]
    change Option.map _ (view (items? d _)) = _
    rw [ih hitems.1 hitems.2]
    rfl

theorem members?_tokens {name : String} (hvalue : Read value) (hmembers : ∀ m ∈ members, Read m.2) :
    view (members? d (.string (some name) :: .colon ::
        (value.tokens ++ (memberTokens members ++ .rightBrace :: rest)))) =
      some (((name, value) :: members).map fun m ↦ (some m.1, m.2.truncate d), rest) := by
  induction members generalizing name value with
  | nil =>
    rw [view_members?, hvalue]
    rfl
  | cons next members ih =>
    obtain ⟨name', value'⟩ := next
    rw [List.forall_mem_cons] at hmembers
    rw [view_members?, hvalue, memberTokens, List.cons_append, List.cons_append, List.cons_append,
      List.append_assoc]
    change Option.map _ (view (members? d _)) = _
    rw [ih hmembers.1 hmembers.2]
    rfl

theorem drop_past (front ts ts' : List Token) {t : Token} :
    (front ++ (ts ++ (ts' ++ t :: rest))).drop (front.length + ts.length + ts'.length + 1) =
      rest := by
  have htext : front ++ (ts ++ (ts' ++ t :: rest)) = (front ++ ts ++ ts' ++ [t]) ++ rest := by simp
  rw [htext]
  exact List.drop_left' (by simp; omega)

theorem ofMembers_some (members : List (String × Json)) :
    ofMembers (members.map fun m ↦ (some m.1, m.2)) = .object members := by
  have hnames : ((members.map fun m ↦ (some m.1, m.2)).mapM fun (m : Option String × Json) ↦
      m.1.map fun name ↦ (name, m.2)) = some members := by
    induction members with
    | nil => rfl
    | cons member members ih =>
      rw [List.map_cons, List.mapM_cons, ih]
      rfl
  unfold ofMembers
  rw [hnames]

theorem read_array (hskipped : ∀ j ∈ items, Skipped j.tokens) (hitems : ∀ j ∈ items, Read j) :
    Read (array items) := by
  intro d rest
  cases items with
  | nil =>
    rw [tokens, List.cons_append, List.singleton_append, view_value?_emptyArray]
    cases d <;> rfl
  | cons item items =>
    rw [List.forall_mem_cons] at hskipped hitems
    rw [tokens, List.cons_append, List.append_assoc, List.append_assoc, List.singleton_append]
    cases d with
    | zero =>
      rw [view_value?_deepArray (tokens_ne_rightBracket _ _), hskipped.1 _ _ _ _ _ (.inr rfl),
        skip_itemTokens hskipped.2]
      exact congrArg (fun ts ↦ some (unreadable, ts)) (drop_past [] _ _)
    | succ d =>
      rw [view_value?_array (tokens_ne_rightBracket _ _), items?_tokens hitems.1 hitems.2]
      rfl

theorem read_object (hskipped : ∀ m ∈ members, Skipped m.2.tokens)
    (hmembers : ∀ m ∈ members, Read m.2) : Read (object members) := by
  intro d rest
  cases members with
  | nil =>
    rw [tokens, List.cons_append, List.singleton_append, view_value?_emptyObject]
    cases d <;> rfl
  | cons member members =>
    obtain ⟨name, value⟩ := member
    rw [List.forall_mem_cons] at hskipped hmembers
    rw [tokens, List.cons_append, List.cons_append, List.cons_append, List.append_assoc,
      List.append_assoc, List.singleton_append]
    cases d with
    | zero =>
      rw [view_value?_deepObject (string_ne_rightBrace _ _)]
      change Option.map _ (skipLength? [.object] .value (0 + 1 + 1) _) = _
      rw [hskipped.1 _ _ _ _ _ (.inl rfl), skip_memberTokens hskipped.2]
      exact congrArg (fun ts ↦ some (unreadable, ts))
        (drop_past [.string (some name), .colon] _ _)
    | succ d =>
      rw [view_value?_object (string_ne_rightBrace _ _), members?_tokens hmembers.1 hmembers.2,
        Option.map_some]
      have hobject :=
        ofMembers_some (((name, value) :: members).map fun m ↦ (m.1, m.2.truncate d))
      rw [List.map_map] at hobject
      exact congrArg (fun j ↦ some (j, rest)) hobject

/-- A value is read back from its tokens, down to the depth that is asked for. -/
theorem Legible.read (h : j.Legible) : Read j := by
  induction h with
  | array h ih => exact read_array (fun j hj ↦ (h j hj).skipped) ih
  | object h ih => exact read_object (fun m hm ↦ (h m hm).skipped) ih
  | string s =>
    intro d rest
    cases d <;> exact view_value?_string _
  | _ =>
    intro d rest
    cases d <;> exact view_value?_plain _

end Tokens

end Peephole.Json
