import Peephole.Source.Lexer

/-!
# The texts of patterns

`Pattern.Matches` says which texts a pattern stands for. The reader of patterns goes through a text
and keeps what the pattern still asks for: `matches_after` says that this is right for one
character, and `longestFrom_cases` that the longest match at the start of a text is found. So the
reader of tokens finds the best match of its table (`Lexer.isBest_of_choose`): none is longer, and
none that is as long has a higher priority.
-/

set_option autoImplicit false
set_option relaxedAutoImplicit false

namespace Peephole.Source

namespace CharSet

variable {c : Char} {cs : List Char}

theorem any_single : (cs.map fun x ↦ (x, x)).any (fun range ↦ range.1 ≤ c && c ≤ range.2) =
    decide (c ∈ cs) := by
  rw [Bool.eq_iff_iff, decide_eq_true_iff, List.any_map, List.any_eq_true]
  constructor
  · rintro ⟨x, hx, hrange⟩
    simp only [Function.comp_apply, Bool.and_eq_true, decide_eq_true_eq] at hrange
    exact Char.le_antisymm hrange.1 hrange.2 ▸ hx
  · exact fun hc ↦ ⟨c, hc, by simp⟩

theorem has_of : (of cs).has c = decide (c ∈ cs) := by
  rw [has, of, any_single]
  exact Bool.xor_false _

theorem has_except : (CharSet.except cs).has c = decide (c ∉ cs) := by
  rw [has, CharSet.except, any_single, decide_not]
  exact Bool.xor_true _

end CharSet

namespace Pattern

/-- The texts of a pattern. -/
inductive Matches : Pattern → List Char → Prop where
  | empty : Matches .empty []
  | one {set : CharSet} {c : Char} (h : set.has c = true) : Matches (.one set) [c]
  | seq {p q : Pattern} {v w : List Char} (first : Matches p v) (second : Matches q w) :
      Matches (.seq p q) (v ++ w)
  | left {p q : Pattern} {w : List Char} (h : Matches p w) : Matches (.either p q) w
  | right {p q : Pattern} {w : List Char} (h : Matches q w) : Matches (.either p q) w
  | none {p : Pattern} : Matches (.many p) []
  | more {p : Pattern} {v w : List Char} (first : Matches p v) (rest : Matches (.many p) w) :
      Matches (.many p) (v ++ w)

section Matches

variable {p q r : Pattern} {set : CharSet} {c : Char} {w : List Char}

theorem not_matches_never : ¬ Matches .never w :=
  nofun

theorem matches_empty : Matches .empty w ↔ w = [] :=
  ⟨fun h ↦ by cases h; rfl, fun h ↦ h ▸ .empty⟩

theorem matches_one : Matches (.one set) w ↔ ∃ c, set.has c = true ∧ w = [c] :=
  ⟨fun h ↦ by cases h with | one h => exact ⟨_, h, rfl⟩, fun ⟨_, h, heq⟩ ↦ heq ▸ .one h⟩

theorem matches_seq : Matches (.seq p q) w ↔ ∃ u v, u ++ v = w ∧ Matches p u ∧ Matches q v :=
  ⟨fun h ↦ by cases h with | seq hp hq => exact ⟨_, _, rfl, hp, hq⟩,
    fun ⟨_, _, heq, hp, hq⟩ ↦ heq ▸ .seq hp hq⟩

theorem matches_either : Matches (.either p q) w ↔ Matches p w ∨ Matches q w :=
  ⟨fun h ↦ by
    cases h with
    | left h => exact .inl h
    | right h => exact .inr h,
    fun h ↦ h.elim .left .right⟩

theorem matches_seq_assoc : Matches (.seq (.seq p q) r) w ↔ Matches (.seq p (.seq q r)) w := by
  simp only [matches_seq]
  constructor
  · rintro ⟨_, v, rfl, ⟨s, t, rfl, hp, hq⟩, hr⟩
    exact ⟨s, t ++ v, (List.append_assoc ..).symm, hp, t, v, rfl, hq, hr⟩
  · rintro ⟨s, _, rfl, hp, t, v, rfl, hq, hr⟩
    exact ⟨s ++ t, v, List.append_assoc .., ⟨s, t, rfl, hp, hq⟩, hr⟩

/-- A sequence begins with its first part, or with its second one if the first part is empty. -/
theorem matches_seq_cons : Matches (.seq p q) (c :: w) ↔
    (Matches p [] ∧ Matches q (c :: w)) ∨ ∃ u v, u ++ v = w ∧ Matches p (c :: u) ∧ Matches q v := by
  rw [matches_seq]
  constructor
  · rintro ⟨u, v, heq, hp, hq⟩
    rcases List.append_eq_cons_iff.mp heq with ⟨rfl, rfl⟩ | ⟨u, rfl, rfl⟩
    · exact .inl ⟨hp, hq⟩
    · exact .inr ⟨u, v, rfl, hp, hq⟩
  · rintro (⟨hp, hq⟩ | ⟨u, v, rfl, hp, hq⟩)
    · exact ⟨[], c :: w, rfl, hp, hq⟩
    · exact ⟨c :: u, v, rfl, hp, hq⟩

/-- A repetition begins with its first part that is not empty. -/
theorem matches_many_cons : Matches (.many p) (c :: w) ↔
    ∃ u v, u ++ v = w ∧ Matches p (c :: u) ∧ Matches (.many p) v := by
  constructor
  · intro h
    generalize hmany : Pattern.many p = many, htext : c :: w = text at h
    induction h with
    | empty | one | seq | left | right => cases hmany
    | none => cases htext
    | @more p' u v hfirst hrest _ ih =>
      cases hmany
      rcases List.append_eq_cons_iff.mp htext.symm with ⟨rfl, rfl⟩ | ⟨u, rfl, rfl⟩
      · exact ih rfl rfl
      · exact ⟨u, v, rfl, hfirst, hrest⟩
  · rintro ⟨u, v, rfl, hfirst, hrest⟩
    exact .more hfirst hrest

theorem matches_many_one : Matches (.many (.one set)) w ↔ ∀ c ∈ w, set.has c = true := by
  induction w with
  | nil => exact iff_of_true .none (List.forall_mem_nil _)
  | cons c w ih =>
    rw [matches_many_cons, List.forall_mem_cons, ← ih]
    constructor
    · rintro ⟨u, v, rfl, hfirst, hrest⟩
      obtain ⟨_, hset, heq⟩ := matches_one.mp hfirst
      cases heq
      exact ⟨hset, hrest⟩
    · rintro ⟨hset, hrest⟩
      exact ⟨[], w, rfl, .one hset, hrest⟩

theorem matches_repeated_one :
    Matches (repeated (.one set)) w ↔ w ≠ [] ∧ ∀ c ∈ w, set.has c = true := by
  rw [repeated, matches_seq]
  constructor
  · rintro ⟨_, v, rfl, hfirst, hrest⟩
    obtain ⟨c, hc, rfl⟩ := matches_one.mp hfirst
    exact ⟨List.cons_ne_nil _ _, List.forall_mem_cons.mpr ⟨hc, matches_many_one.mp hrest⟩⟩
  · rintro ⟨hne, hw⟩
    cases w with
    | nil => exact absurd rfl hne
    | cons c w =>
      rw [List.forall_mem_cons] at hw
      exact ⟨[c], w, rfl, .one hw.1, matches_many_one.mpr hw.2⟩

theorem matches_optional : Matches (optional p) w ↔ Matches p w ∨ w = [] := by
  rw [optional, matches_either, matches_empty]

theorem matches_char : Matches (char c) w ↔ w = [c] := by
  simp [char, matches_one, CharSet.has_of]

theorem matches_literal {text : String} : Matches (literal text) w ↔ w = text.toList := by
  rw [literal]
  induction text.toList generalizing w with
  | nil => exact matches_empty
  | cons c cs ih =>
    simp only [List.foldr_cons, matches_seq, matches_char, ih]
    constructor
    · rintro ⟨_, _, rfl, rfl, rfl⟩
      rfl
    · rintro rfl
      exact ⟨[c], cs, rfl, rfl, rfl⟩

end Matches

/-! ### After a character -/

section After

variable {p q : Pattern} {c : Char} {w : List Char}

theorem isNullable_iff : p.isNullable = true ↔ Matches p [] := by
  induction p with
  | never => exact iff_of_false Bool.false_ne_true not_matches_never
  | empty => exact iff_of_true rfl .empty
  | one set => simp [isNullable, matches_one]
  | seq p q ihp ihq =>
    rw [isNullable, Bool.and_eq_true, ihp, ihq, matches_seq]
    constructor
    · rintro ⟨hp, hq⟩
      exact ⟨[], [], rfl, hp, hq⟩
    · rintro ⟨u, v, heq, hp, hq⟩
      obtain ⟨rfl, rfl⟩ := List.append_eq_nil_iff.mp heq
      exact ⟨hp, hq⟩
  | either p q ihp ihq => simp [isNullable, matches_either, ihp, ihq]
  | many p => exact iff_of_true rfl .none

theorem matches_followedBy : Matches (p.followedBy q) w ↔ Matches (.seq p q) w := by
  cases p with
  | never => simp [followedBy, matches_seq, not_matches_never]
  | empty =>
    rw [followedBy, matches_seq]
    constructor
    · exact fun h ↦ ⟨[], w, rfl, .empty, h⟩
    · rintro ⟨u, v, rfl, hu, hv⟩
      rwa [matches_empty.mp hu]
  | one | seq | either | many => rfl

theorem matches_orElse : Matches (p.orElse q) w ↔ Matches p w ∨ Matches q w := by
  cases p with
  | never => simp [orElse, not_matches_never]
  | empty | one | seq | either | many =>
    cases q with
    | never => simp [orElse, not_matches_never]
    | empty | one | seq | either | many => exact matches_either

/-- What a pattern asks for after a character is the rest of its texts with this character. -/
theorem matches_after : Matches (p.after c) w ↔ Matches p (c :: w) := by
  induction p generalizing w with
  | never | empty => exact iff_of_false not_matches_never nofun
  | one set =>
    by_cases hc : set.has c = true
    · rw [after, if_pos hc, matches_empty, matches_one]
      constructor
      · rintro rfl
        exact ⟨c, hc, rfl⟩
      · rintro ⟨_, -, heq⟩
        exact (List.cons.inj heq).2
    · rw [after, if_neg hc, matches_one]
      refine iff_of_false not_matches_never ?_
      rintro ⟨_, hset, heq⟩
      cases heq
      exact hc hset
  | seq p q ihp ihq =>
    rw [matches_seq_cons, after]
    by_cases hp : p.isNullable = true
    · simp only [if_pos hp, matches_orElse, matches_followedBy, matches_seq, ihp, ihq,
        isNullable_iff.mp hp, true_and, or_comm]
    · have hnil : ¬ Matches p [] := fun h ↦ hp (isNullable_iff.mpr h)
      simp only [if_neg hp, matches_followedBy, matches_seq, ihp, hnil, false_and, false_or]
  | either p q ihp ihq => simp only [after, matches_orElse, matches_either, ihp, ihq]
  | many p ih => simp only [after, matches_followedBy, matches_seq, matches_many_cons, ih]

theorem eq_never_of_isNever (h : p.isNever = true) : p = .never := by
  cases p with
  | never => rfl
  | empty | one | seq | either | many => cases h

end After

/-! ### The longest match -/

/-- The longest text of a pattern at the start of another text. -/
structure IsLongest (p : Pattern) (cs w : List Char) : Prop where
  starts : w <+: cs
  accepted : Matches p w
  longest : ∀ v, v <+: cs → Matches p v → v.length ≤ w.length

section Longest

variable {p : Pattern} {c : Char} {cs w : List Char}

/-- Without a longer match, the empty text is the longest one if it matches. -/
theorem IsLongest.nil (hp : Matches p []) (h : ∀ v, v <+: cs → v ≠ [] → ¬ Matches p v) :
    p.IsLongest cs [] :=
  ⟨List.nil_prefix, hp, fun v hv hmatch ↦ by
    by_cases hne : v = []
    · exact Nat.le_of_eq (congrArg List.length hne)
    · exact absurd hmatch (h v hv hne)⟩

theorem IsLongest.cons (h : (p.after c).IsLongest cs w) : p.IsLongest (c :: cs) (c :: w) := by
  refine ⟨List.cons_prefix_cons.mpr ⟨rfl, h.starts⟩, matches_after.mp h.accepted, ?_⟩
  intro v hv hmatch
  rcases List.prefix_cons_iff.mp hv with rfl | ⟨v, rfl, hrest⟩
  · exact Nat.zero_le _
  · exact Nat.succ_le_succ (h.longest v hrest (matches_after.mpr hmatch))

/-- A text of no pattern after its first character has at most the empty text of it. -/
theorem not_matches_of_after (h : ∀ v, v <+: cs → ¬ Matches (p.after c) v) :
    ∀ v, v <+: c :: cs → v ≠ [] → ¬ Matches p v := by
  intro v hv hne hmatch
  rcases List.prefix_cons_iff.mp hv with rfl | ⟨v, rfl, hrest⟩
  · exact hne rfl
  · exact h v hrest (matches_after.mpr hmatch)

/-- The reader keeps the last place at which the pattern was matched. -/
theorem longestFrom_cases (p : Pattern) (read : Nat) (best : Option Nat) (cs : List Char) :
    (∃ w, p.IsLongest cs w ∧ p.longestFrom read best cs = some (read + w.length)) ∨
      (∀ v, v <+: cs → ¬ Matches p v) ∧ p.longestFrom read best cs = best := by
  -- With nothing longer, the result is the place before the text or what was found before it.
  have hhere (p : Pattern) (read : Nat) (best : Option Nat) (cs : List Char)
      (h : ∀ v, v <+: cs → v ≠ [] → ¬ Matches p v) :
      (∃ w, p.IsLongest cs w ∧
        (if p.isNullable then some read else best) = some (read + w.length)) ∨
      (∀ v, v <+: cs → ¬ Matches p v) ∧ (if p.isNullable then some read else best) = best := by
    by_cases hp : p.isNullable = true
    · exact .inl ⟨[], .nil (isNullable_iff.mp hp) h, if_pos hp⟩
    · refine .inr ⟨fun v hv hmatch ↦ ?_, if_neg hp⟩
      by_cases hne : v = []
      · exact hp (isNullable_iff.mpr (hne ▸ hmatch))
      · exact h v hv hne hmatch
  induction cs generalizing p read best with
  | nil => exact hhere p read best [] fun v hv hne ↦ absurd (List.prefix_nil.mp hv) hne
  | cons c cs ih =>
    rw [longestFrom]
    by_cases hnever : (p.after c).isNever = true
    · rw [if_pos hnever]
      refine hhere p read best _ (not_matches_of_after fun v _ hmatch ↦ ?_)
      rw [eq_never_of_isNever hnever] at hmatch
      exact not_matches_never hmatch
    · rw [if_neg hnever]
      rcases ih (p.after c) (read + 1) (if p.isNullable then some read else best) with
        ⟨w, hw, heq⟩ | ⟨hnone, heq⟩
      · refine .inl ⟨c :: w, hw.cons, ?_⟩
        rw [heq, List.length_cons, Nat.add_assoc, Nat.add_comm 1]
      · rw [heq]
        exact hhere p read best _ (not_matches_of_after hnone)

theorem exists_isLongest_of_longest {n : Nat} (h : p.longest cs = some n) :
    ∃ w, p.IsLongest cs w ∧ w.length = n := by
  rcases longestFrom_cases p 0 none cs with ⟨w, hw, heq⟩ | ⟨-, heq⟩
  · rw [longest, heq, Nat.zero_add] at h
    exact ⟨w, hw, Option.some.inj h⟩
  · rw [longest, heq] at h
    cases h

theorem exists_longest_of_matches (hw : w <+: cs) (h : Matches p w) :
    ∃ n, p.longest cs = some n ∧ w.length ≤ n := by
  rcases longestFrom_cases p 0 none cs with ⟨v, hv, heq⟩ | ⟨hnone, -⟩
  · exact ⟨v.length, by rw [longest, heq, Nat.zero_add], hv.longest w hw h⟩
  · exact absurd h (hnone w hw)

end Longest

end Pattern

/-! ### The best match of a table -/

namespace Lexer

open Pattern

/-- The text of a rule of a table that is the longest one at the start of a text, for the rule of
the highest priority that has it. -/
structure IsBest (rules : List TokenRule) (cs : List Char) (rule : TokenRule) (w : List Char) :
    Prop where
  mem : rule ∈ rules
  starts : w <+: cs
  accepted : rule.pattern.Matches w
  longest : ∀ other ∈ rules, ∀ v, v <+: cs → other.pattern.Matches v → v.length ≤ w.length
  highest : ∀ other ∈ rules, other.pattern.Matches w →
    other.pattern.priority ≤ rule.pattern.priority

section Choosing

variable {rules : List TokenRule} {cs w : List Char} {rule : TokenRule} {n : Nat}

theorem outranks_eq_false {other : TokenRule} {m : Nat} : outranks (other, m) (rule, n) = false ↔
    m < n ∨ m = n ∧ other.pattern.priority ≤ rule.pattern.priority := by
  simp only [outranks, Bool.or_eq_false_iff, Bool.and_eq_false_iff, decide_eq_false_iff_not]
  omega

theorem choose_eq_none (h : choose cs rules = none) :
    ∀ rule ∈ rules, rule.pattern.longest cs = none := by
  induction rules with
  | nil => exact List.forall_mem_nil _
  | cons first rules ih =>
    rw [choose] at h
    cases hfirst : first.pattern.longest cs with
    | none =>
      rw [hfirst] at h
      exact List.forall_mem_cons.mpr ⟨hfirst, ih h⟩
    | some k =>
      rw [hfirst] at h
      cases hrest : choose cs rules <;> rw [hrest] at h <;> cases h

/-- The chosen match is found, and no other match outranks it. -/
theorem choose_eq_some (h : choose cs rules = some (rule, n)) :
    rule ∈ rules ∧ rule.pattern.longest cs = some n ∧
      ∀ other ∈ rules, ∀ m, other.pattern.longest cs = some m →
        outranks (other, m) (rule, n) = false := by
  induction rules generalizing rule n with
  | nil => cases h
  | cons first rules ih =>
    rw [choose] at h
    cases hfirst : first.pattern.longest cs with
    | none =>
      rw [hfirst] at h
      obtain ⟨hmem, hlongest, hothers⟩ := ih h
      refine ⟨List.mem_cons_of_mem _ hmem, hlongest, List.forall_mem_cons.mpr ⟨?_, hothers⟩⟩
      exact fun m hm ↦ by cases hfirst.symm.trans hm
    | some k =>
      have hself : ∀ m, first.pattern.longest cs = some m →
          outranks (first, m) (first, k) = false := fun m hm ↦
        Option.some.inj (hfirst.symm.trans hm) ▸ outranks_eq_false.mpr (.inr ⟨rfl, Nat.le_refl _⟩)
      cases hrest : choose cs rules with
      | none =>
        rw [hfirst, hrest] at h
        cases h
        refine ⟨List.mem_cons_self, hfirst, List.forall_mem_cons.mpr ⟨hself, ?_⟩⟩
        exact fun other hother m hm ↦ by cases (choose_eq_none hrest other hother).symm.trans hm
      | some chosen =>
        obtain ⟨best, l⟩ := chosen
        obtain ⟨hmem, hlongest, hothers⟩ := ih hrest
        rw [hfirst, hrest] at h
        by_cases hbest : outranks (best, l) (first, k) = true
        · cases (if_pos hbest).symm.trans (Option.some.inj h)
          refine ⟨List.mem_cons_of_mem _ hmem, hlongest, List.forall_mem_cons.mpr ⟨?_, hothers⟩⟩
          intro m hm
          cases hfirst.symm.trans hm
          have hhigher := (not_congr outranks_eq_false).mp (by rw [hbest]; decide)
          exact outranks_eq_false.mpr (by omega)
        · cases (if_neg hbest).symm.trans (Option.some.inj h)
          refine ⟨List.mem_cons_self, hfirst, List.forall_mem_cons.mpr ⟨hself, ?_⟩⟩
          intro other hother m hm
          have h₁ := outranks_eq_false.mp (hothers other hother m hm)
          have h₂ := outranks_eq_false.mp (Bool.eq_false_iff.mpr hbest)
          exact outranks_eq_false.mpr (by omega)

/-- The reader of tokens takes the best match of its table. -/
theorem isBest_of_choose (h : choose cs rules = some (rule, n)) :
    ∃ w, w.length = n ∧ IsBest rules cs rule w := by
  obtain ⟨hmem, hlongest, hothers⟩ := choose_eq_some h
  obtain ⟨w, hw, rfl⟩ := exists_isLongest_of_longest hlongest
  have hlower : ∀ other ∈ rules, ∀ v, v <+: cs → other.pattern.Matches v →
      v.length < w.length ∨
        v.length = w.length ∧ other.pattern.priority ≤ rule.pattern.priority := by
    intro other hother v hv hmatch
    obtain ⟨m, hm, hle⟩ := exists_longest_of_matches hv hmatch
    have houtranked := outranks_eq_false.mp (hothers other hother m hm)
    omega
  refine ⟨w, rfl, hmem, hw.starts, hw.accepted, fun other hother v hv hmatch ↦ ?_,
    fun other hother hmatch ↦ ?_⟩
  · have := hlower other hother v hv hmatch
    omega
  · have := hlower other hother w hw.starts hmatch
    omega

/-- Where a rule of the table matches, a match is taken. -/
theorem exists_choose (hmem : rule ∈ rules) (hw : w <+: cs) (h : rule.pattern.Matches w) :
    ∃ best n, choose cs rules = some (best, n) := by
  cases hchoose : choose cs rules with
  | none =>
    obtain ⟨m, hm, -⟩ := exists_longest_of_matches hw h
    cases (choose_eq_none hchoose rule hmem).symm.trans hm
  | some best => exact ⟨best.1, best.2, rfl⟩

end Choosing

end Lexer

end Peephole.Source
