import Peephole.Proofs.Reading

/-!
# Calls by the grammar

Each part of a call is read as the grammar says, in both directions: what is read is in the grammar
(`parameters_of_reads`, `reference_of_reads`, `modifiers_of_reads`, `call_of_reads`), and what is in
the grammar is read if the tokens after it do not continue it (`reads_of_parameters` and the like).

Names are looked up twice: the grammar asks for any declaration with the name and any standard gate
with the name, while reading finds the first one in the scope and searches two tables. So
completeness needs that the names of the scope are different, that the table of gates holds each
standard gate under its own names (`StandardGate.ofName?_eq_some`), and that the table of parameter
counts agrees with it (`paramCount?_eq_some`).
-/

set_option autoImplicit false
set_option relaxedAutoImplicit false

namespace Peephole

/-! ### The tables of standard gates -/

namespace StandardGate

variable {name : String} {params : List Angle} {g : StandardGate}

/-- The standard gate that is found for a name and parameters is the one that has them. -/
theorem ofName?_eq_some : ofName? name params = some g ↔ name ∈ g.names ∧ g.params = params := by
  constructor
  · intro h
    unfold ofName? at h
    split at h <;> cases h <;> exact ⟨by simp [names], rfl⟩
  · rintro ⟨hname, rfl⟩
    cases g with
    | p θ =>
      rcases List.mem_cons.mp hname with rfl | hname
      · rfl
      · cases List.mem_singleton.mp hname
        rfl
    | _ =>
      cases List.mem_singleton.mp hname
      rfl

theorem arity_eq_targetCount (g : StandardGate) : g.arity = g.targetCount := by
  cases g <;> rfl

end StandardGate

namespace Source

/-- The two tables agree: a name has a number of parameters exactly if there is a standard gate for
the name and this many parameters. -/
theorem paramCount?_eq_some {name : String} {count : Nat} : paramCount? name = some count ↔
    ∃ params g, StandardGate.ofName? name params = some g ∧ params.length = count := by
  constructor
  · intro h
    unfold paramCount? at h
    split at h <;> cases h <;> first | exact ⟨[], _, rfl, rfl⟩ | exact ⟨[.pi], _, rfl, rfl⟩
  · rintro ⟨params, g, h, rfl⟩
    unfold StandardGate.ofName? at h
    split at h <;> cases h <;> rfl

theorem paramCount?_eq_none {name : String} :
    paramCount? name = none ↔ ∀ g : StandardGate, name ∉ g.names := by
  rw [Option.eq_none_iff_forall_ne_some]
  constructor
  · intro h g hname
    exact h _ (paramCount?_eq_some.mpr
      ⟨g.params, g, StandardGate.ofName?_eq_some.mpr ⟨hname, rfl⟩, rfl⟩)
  · intro h count hcount
    obtain ⟨params, g, hfound, -⟩ := paramCount?_eq_some.mp hcount
    exact h g (StandardGate.ofName?_eq_some.mp hfound).1

/-! ### Lists with commas -/

section Separated

variable {α : Type} {item : List Token → α → Prop} {first : Tokens → α → Tokens → Prop}
  {more : Tokens → List α → Tokens → Prop} {ts rest : Tokens} {a : α} {as : List α}

/-- The further items of a list are read as long as there are commas. -/
structure ReadsFurther (first : Tokens → α → Tokens → Prop)
    (more : Tokens → List α → Tokens → Prop) : Prop where
  comma {ts ts₁ rest : Tokens} {as : List α} (h : Begins ts [.mark .comma] ts₁) :
    more ts as rest ↔ ∃ a rest₁, first ts₁ a rest₁ ∧ ∃ as', more rest₁ as' rest ∧ a :: as' = as
  done {ts rest : Tokens} {as : List α} (h : ¬ StartsWith ts .comma) :
    more ts as rest ↔ [] = as ∧ ts = rest

theorem ReadsFurther.separated (hmore : ReadsFurther first more)
    (hfirst : ∀ {ts a rest}, first ts a rest → ∃ ws, Begins ts ws rest ∧ item ws a)
    {rest₁ : Tokens} (ha : first ts a rest₁) (has : more rest₁ as rest) :
    ∃ ws, Begins ts ws rest ∧ Grammar.Separated item ws (a :: as) := by
  induction as generalizing ts a rest₁ with
  | nil =>
    by_cases hcomma : StartsWith rest₁ .comma
    · obtain ⟨ts₁, hcomma⟩ := hcomma
      obtain ⟨_, _, _, _, _, heq⟩ := (hmore.comma hcomma).mp has
      cases heq
    · obtain ⟨-, rfl⟩ := (hmore.done hcomma).mp has
      obtain ⟨ws, hws, hitem⟩ := hfirst ha
      exact ⟨ws, hws, .one hitem⟩
  | cons b as ih =>
    by_cases hcomma : StartsWith rest₁ .comma
    · obtain ⟨ts₁, hcomma⟩ := hcomma
      obtain ⟨b', rest₂, hb, as', has', heq⟩ := (hmore.comma hcomma).mp has
      cases heq
      obtain ⟨vs, hvs, hlist⟩ := ih hb has'
      obtain ⟨ws, hws, hitem⟩ := hfirst ha
      refine ⟨_, ?_, .more hitem hlist⟩
      exact begins_append.mpr ⟨rest₁, hws, begins_cons.mpr ⟨ts₁, hcomma, hvs⟩⟩
    · obtain ⟨heq, -⟩ := (hmore.done hcomma).mp has
      cases heq

/-- A list of the grammar is read if what follows neither continues its last item nor is a comma. -/
theorem ReadsFurther.reads_of_separated (hmore : ReadsFurther first more) {ends : Tokens → Prop}
    (hfirst : ∀ {ts ws a rest}, item ws a → Begins ts ws rest → ends rest → first ts a rest)
    (hends : ∀ {ts rest}, Begins ts [.mark .comma] rest → ends ts) {ws : List Token}
    (h : Grammar.Separated item ws as) (hws : Begins ts ws rest) (hend : ends rest)
    (hlast : ¬ StartsWith rest .comma) :
    ∃ a as' rest₁, a :: as' = as ∧ first ts a rest₁ ∧ more rest₁ as' rest := by
  induction h generalizing ts with
  | @one ws a ha => exact ⟨a, [], rest, rfl, hfirst ha hws hend, (hmore.done hlast).mpr ⟨rfl, rfl⟩⟩
  | @more ws vs a as ha _ ih =>
    obtain ⟨rest₁, hws, hrest⟩ := begins_append.mp hws
    obtain ⟨ts₁, hcomma, hvs⟩ := begins_cons.mp hrest
    obtain ⟨b, as', rest₂, rfl, hb, has'⟩ := ih hvs
    exact ⟨a, b :: as', rest₁, rfl, hfirst ha hws (hends hcomma),
      (hmore.comma hcomma).mpr ⟨b, rest₂, hb, as', has', rfl⟩⟩

end Separated

/-! ### Parameters -/

section Parameters

variable {ts rest : Tokens} {es : List Angle}

theorem readsFurther_expressions : ReadsFurther (fun ts e rest ↦ Reads (expression ts) e rest)
    fun ts es rest ↦ Reads (moreExpressions ts) es rest where
  comma {ts ts₁ rest es} h := by
    obtain ⟨line, rfl⟩ := begins_singleton.mp h
    rw [moreExpressions, if_pos (isMark_iff.mpr rfl)]
    exact reads_bind fun e rest₁ h₁ ↦ reads_map fun _ _ h₂ ↦
      Nat.le_succ_of_le (Nat.le_of_lt (Nat.lt_of_le_of_lt h₂ h₁))
  done {ts rest es} h := by
    cases ts with
    | nil => rw [moreExpressions, reads_ok]
    | cons t ts =>
      rw [moreExpressions, if_neg fun hm ↦ h (startsWith_cons.mpr hm), reads_ok]

theorem reads_expressionList_of_begins {rest₁ : Tokens} (h : Begins ts [.mark .rightParen] rest₁) :
    Reads (expressionList ts) es rest ↔ [] = es ∧ ts = rest := by
  obtain ⟨line, rfl⟩ := begins_singleton.mp h
  rw [expressionList, if_pos (by simp [Token.isMark]), reads_ok]

theorem reads_expressionList_of_not_startsWith (h : ¬ StartsWith ts .rightParen) :
    Reads (expressionList ts) es rest ↔
      ∃ e rest₁, Reads (expression ts) e rest₁ ∧
        ∃ es', Reads (moreExpressions rest₁) es' rest ∧ e :: es' = es := by
  have hparen : ¬ ts.head?.any (·.token.isMark .rightParen) = true := by
    cases ts with
    | nil => simp
    | cons t ts => exact fun hm ↦ h (startsWith_cons.mpr hm)
  rw [expressionList, if_neg hparen]
  exact reads_bind fun e rest₁ h₁ ↦ reads_map fun _ _ h₂ ↦ Nat.le_of_lt (Nat.lt_of_le_of_lt h₂ h₁)

theorem reads_parameters_of_begins {ts₁ : Tokens} (h : Begins ts [.mark .leftParen] ts₁) :
    Reads (parameters ts) es rest ↔
      ∃ rest₁, Reads (expressionList ts₁) es rest₁ ∧ Begins rest₁ [.mark .rightParen] rest := by
  obtain ⟨line, rfl⟩ := begins_singleton.mp h
  rw [parameters, if_pos (isMark_iff.mpr rfl)]
  refine (reads_bind fun es' rest₁ h₁ ↦ reads_map (k := fun _ ↦ es') fun _ _ h₂ ↦
    Nat.le_succ_of_le (Nat.le_trans (Nat.le_of_lt h₂) h₁)).trans ?_
  constructor
  · rintro ⟨es', rest₁, hlist, _, hclose, rfl⟩
    exact ⟨rest₁, hlist, reads_expectMark.mp hclose⟩
  · rintro ⟨rest₁, hlist, hclose⟩
    exact ⟨es, rest₁, hlist, (), reads_expectMark.mpr hclose, rfl⟩

theorem reads_parameters_of_not_startsWith (h : ¬ StartsWith ts .leftParen) :
    Reads (parameters ts) es rest ↔ [] = es ∧ ts = rest := by
  cases ts with
  | nil => rw [parameters, reads_ok]
  | cons t ts => rw [parameters, if_neg fun hm ↦ h (startsWith_cons.mpr hm), reads_ok]

theorem parameters_of_reads (h : Reads (parameters ts) es rest) :
    ∃ ws, Begins ts ws rest ∧ Grammar.Parameters ws es := by
  by_cases hopen : StartsWith ts .leftParen
  · obtain ⟨ts₁, hopen⟩ := hopen
    obtain ⟨rest₁, hlist, hclose⟩ := (reads_parameters_of_begins hopen).mp h
    by_cases hempty : StartsWith ts₁ .rightParen
    · obtain ⟨rest₂, hempty⟩ := hempty
      obtain ⟨rfl, rfl⟩ := (reads_expressionList_of_begins hempty).mp hlist
      exact ⟨_, begins_cons.mpr ⟨ts₁, hopen, hclose⟩, .empty⟩
    · obtain ⟨e, rest₂, he, es', hes', rfl⟩ :=
        (reads_expressionList_of_not_startsWith hempty).mp hlist
      obtain ⟨ws, hws, hseparated⟩ :=
        readsFurther_expressions.separated expression_of_reads he hes'
      refine ⟨_, ?_, .listed hseparated⟩
      exact begins_cons.mpr ⟨ts₁, hopen, begins_append.mpr ⟨rest₁, hws, hclose⟩⟩
  · obtain ⟨rfl, rfl⟩ := (reads_parameters_of_not_startsWith hopen).mp h
    exact ⟨[], begins_nil.mpr rfl, .absent⟩

theorem reads_of_parameters {ws : List Token} (h : Grammar.Parameters ws es)
    (hws : Begins ts ws rest) (hend : ¬ StartsWith rest .leftParen) :
    Reads (parameters ts) es rest := by
  cases h with
  | absent =>
    rw [begins_nil] at hws
    subst hws
    exact (reads_parameters_of_not_startsWith hend).mpr ⟨rfl, rfl⟩
  | empty =>
    obtain ⟨ts₁, hopen, hclose⟩ := begins_cons.mp hws
    exact (reads_parameters_of_begins hopen).mpr
      ⟨ts₁, (reads_expressionList_of_begins hclose).mpr ⟨rfl, rfl⟩, hclose⟩
  | listed hlist =>
    obtain ⟨ts₁, hopen, hrest⟩ := begins_cons.mp hws
    obtain ⟨rest₁, hws, hclose⟩ := begins_append.mp hrest
    obtain ⟨e, es', rest₂, rfl, he, hes'⟩ := readsFurther_expressions.reads_of_separated
      reads_expression_of (not_binds · rfl) hlist hws (not_binds hclose rfl)
      (not_startsWith hclose nofun)
    exact (reads_parameters_of_begins hopen).mpr ⟨rest₁,
      (reads_expressionList_of_not_startsWith (not_startsWith_of_expression he)).mpr
        ⟨e, rest₂, he, es', hes', rfl⟩, hclose⟩

end Parameters

/-! ### References -/

section References

variable {scope : List Declaration} {ts rest : Tokens} {q : Qubit}

theorem reference_of_reads (h : Reads (reference scope ts) q rest) :
    ∃ ws, Begins ts ws rest ∧ Grammar.Reference scope ws q := by
  unfold reference at h
  obtain ⟨name, rest₁, hp, hname, h⟩ := exists_of_reads_bind h
  rw [reads_expectIdentifier] at hname
  dsimp only at h
  split at h
  · exact (reads_throw.mp h).elim
  next d hfind =>
  have hd : d ∈ scope := List.mem_of_find?_eq_some hfind
  obtain rfl : d.name = name := by simpa using List.find?_some hfind
  have hplain {hp : rest₁.length < ts.length}
      (hreads : Reads (if d.size.isSome then throw (SourceFault.indexMismatch d.name true)
        else pure (⟨(⟨d.name, none⟩, rest₁), hp⟩ : Parsed Qubit ts)) q rest) :
      ∃ ws, Begins ts ws rest ∧ Grammar.Reference scope ws q := by
    split at hreads
    · exact (reads_throw.mp hreads).elim
    next hsize =>
    obtain ⟨rfl, rfl⟩ := reads_ok.mp hreads
    exact ⟨_, hname, .single hd (by simpa using hsize)⟩
  cases rest₁ with
  | nil => exact hplain h
  | cons t ts₁ =>
    dsimp only at h
    split at h
    · next hopen =>
      obtain ⟨⟨i, line⟩, rest₂, _, hindex, h⟩ := exists_of_reads_bind h
      obtain ⟨_, rest₃, _, hclose, h⟩ := exists_of_reads_bind h
      rw [reads_expectInteger] at hindex
      rw [reads_expectMark] at hclose
      dsimp only at h
      split at h
      · exact (reads_throw.mp h).elim
      next size hsize =>
      split at h
      · next hlt =>
        obtain ⟨rfl, rfl⟩ := reads_ok.mp h
        refine ⟨_, ?_, .slot hd hsize hlt⟩
        exact begins_cons.mpr ⟨_, hname, begins_cons.mpr ⟨ts₁, begins_of_isMark hopen,
          begins_cons.mpr ⟨rest₂, begins_singleton.mpr ⟨line, hindex⟩, hclose⟩⟩⟩
      · exact (reads_throw.mp h).elim
    · exact hplain h

theorem exists_identifier_of_reference (h : Reads (reference scope ts) q rest) :
    ∃ name rest₁, Begins ts [.identifier name] rest₁ := by
  unfold reference at h
  obtain ⟨name, rest₁, _, hname, -⟩ := exists_of_reads_bind h
  exact ⟨name, rest₁, reads_expectIdentifier.mp hname⟩

/-- In a scope without repeated names a declaration is found by its name. -/
theorem find?_scope (hscope : (scope.map Declaration.name).Nodup) {d : Declaration}
    (hd : d ∈ scope) : scope.find? (·.name = d.name) = some d := by
  induction scope with
  | nil => cases hd
  | cons d' scope ih =>
    rw [List.map_cons, List.nodup_cons] at hscope
    rcases List.mem_cons.mp hd with rfl | hd
    · rw [List.find?_cons_of_pos (by simp)]
    · have hne : d'.name ≠ d.name := fun h ↦ hscope.1 (h ▸ List.mem_map_of_mem hd)
      rw [List.find?_cons_of_neg (by simpa using hne), ih hscope.2 hd]

theorem reads_of_reference (hscope : (scope.map Declaration.name).Nodup) {ws : List Token}
    (h : Grammar.Reference scope ws q) (hws : Begins ts ws rest)
    (hend : ¬ StartsWith rest .leftBracket) : Reads (reference scope ts) q rest := by
  cases h with
  | @single d hd hsize =>
    refine reads_bind_of (reads_expectIdentifier.mpr hws) fun _ ↦ ?_
    dsimp only
    rw [find?_scope hscope hd]
    cases rest with
    | nil =>
      dsimp only
      rw [if_neg (by simp [hsize])]
      exact reads_ok.mpr ⟨rfl, rfl⟩
    | cons t rest =>
      dsimp only
      rw [if_neg fun hopen ↦ hend (startsWith_cons.mpr hopen), if_neg (by simp [hsize])]
      exact reads_ok.mpr ⟨rfl, rfl⟩
  | @slot d size index hd hsize hindex =>
    obtain ⟨ts₁, hname, hrest⟩ := begins_cons.mp hws
    obtain ⟨ts₂, hopen, hrest⟩ := begins_cons.mp hrest
    obtain ⟨ts₃, hint, hclose⟩ := begins_cons.mp hrest
    obtain ⟨line, rfl⟩ := begins_singleton.mp hopen
    obtain ⟨line', rfl⟩ := begins_singleton.mp hint
    refine reads_bind_of (reads_expectIdentifier.mpr hname) fun _ ↦ ?_
    dsimp only
    rw [find?_scope hscope hd]
    dsimp only
    rw [if_pos (isMark_iff.mpr rfl)]
    refine reads_bind_of (reads_expectInteger.mpr rfl) fun _ ↦ ?_
    refine reads_bind_of (reads_expectMark.mpr hclose) (a := ()) fun _ ↦ ?_
    dsimp only
    rw [hsize]
    dsimp only
    rw [if_pos hindex]
    exact reads_ok.mpr ⟨rfl, rfl⟩

theorem readsFurther_references :
    ReadsFurther (fun ts q rest ↦ Reads (reference scope ts) q rest)
      fun ts qs rest ↦ Reads (moreReferences scope ts) qs rest where
  comma {ts ts₁ rest es} h := by
    obtain ⟨line, rfl⟩ := begins_singleton.mp h
    rw [moreReferences, if_pos (isMark_iff.mpr rfl)]
    exact reads_bind fun q rest₁ h₁ ↦ reads_map fun _ _ h₂ ↦
      Nat.le_succ_of_le (Nat.le_of_lt (Nat.lt_of_le_of_lt h₂ h₁))
  done {ts rest es} h := by
    cases ts with
    | nil => rw [moreReferences, reads_ok]
    | cons t ts =>
      rw [moreReferences, if_neg fun hm ↦ h (startsWith_cons.mpr hm), reads_ok]

end References

/-! ### Modifiers -/

section Modifiers

variable {ts rest : Tokens} {ms : List Modifier} {count : Nat}

theorem modifier?_eq_some {w : Token} {negated : Bool} :
    w.modifier? = some negated ↔ w = .mark (modifierMark negated) := by
  constructor
  · intro h
    unfold Token.modifier? at h
    split at h <;> cases h <;> rfl
  · rintro rfl
    cases negated <;> rfl

theorem reads_modifierCount_of_begins {ts₁ : Tokens} (h : Begins ts [.mark .leftParen] ts₁) :
    Reads (modifierCount ts) count rest ↔
      0 < count ∧ Begins ts₁ [.int count, .mark .rightParen] rest := by
  obtain ⟨line, rfl⟩ := begins_singleton.mp h
  rw [modifierCount, if_pos (isMark_iff.mpr rfl)]
  constructor
  · intro hreads
    obtain ⟨⟨n, line'⟩, rest₁, _, hint, hreads⟩ := exists_of_reads_bind hreads
    obtain ⟨_, rest₂, _, hclose, hreads⟩ := exists_of_reads_bind hreads
    rw [reads_expectInteger] at hint
    rw [reads_expectMark] at hclose
    dsimp only at hreads
    split at hreads
    · exact (reads_throw.mp hreads).elim
    next hzero =>
    obtain ⟨rfl, rfl⟩ := reads_ok.mp hreads
    exact ⟨Nat.pos_of_ne_zero hzero,
      begins_cons.mpr ⟨rest₁, begins_singleton.mpr ⟨line', hint⟩, hclose⟩⟩
  · rintro ⟨hpos, hrest⟩
    obtain ⟨ts₂, hint, hclose⟩ := begins_cons.mp hrest
    obtain ⟨line', rfl⟩ := begins_singleton.mp hint
    refine reads_bind_of (reads_expectInteger.mpr rfl) fun _ ↦ ?_
    refine reads_bind_of (reads_expectMark.mpr hclose) (a := ()) fun _ ↦ ?_
    dsimp only
    rw [if_neg (Nat.ne_of_gt hpos)]
    exact reads_ok.mpr ⟨rfl, rfl⟩

theorem reads_modifierCount_of_not_startsWith (h : ¬ StartsWith ts .leftParen) :
    Reads (modifierCount ts) count rest ↔ 1 = count ∧ ts = rest := by
  cases ts with
  | nil => rw [modifierCount, reads_ok]
  | cons t ts => rw [modifierCount, if_neg fun hm ↦ h (startsWith_cons.mpr hm), reads_ok]

theorem reads_modifiers_of_begins {negated : Bool} {ts₁ : Tokens}
    (h : Begins ts [.mark (modifierMark negated)] ts₁) :
    Reads (modifiers ts) ms rest ↔
      ∃ count rest₁, Reads (modifierCount ts₁) count rest₁ ∧ ∃ rest₂,
        Begins rest₁ [.mark .atSign] rest₂ ∧ ∃ ms', Reads (modifiers rest₂) ms' rest ∧
          ⟨negated, count⟩ :: ms' = ms := by
  obtain ⟨line, rfl⟩ := begins_singleton.mp h
  rw [modifiers, modifier?_eq_some.mpr rfl]
  refine reads_bind fun count rest₁ h₁ ↦ ?_
  refine (reads_bind fun _ rest₂ h₂ ↦ reads_map fun _ _ h₃ ↦
    Nat.le_succ_of_le (Nat.le_trans h₃ (Nat.le_trans (Nat.le_of_lt h₂) h₁))).trans ?_
  simp only [reads_expectMark, exists_const]

theorem reads_modifiers_of_not_startsWith (h : ∀ negated, ¬ StartsWith ts (modifierMark negated)) :
    Reads (modifiers ts) ms rest ↔ [] = ms ∧ ts = rest := by
  cases ts with
  | nil => rw [modifiers, reads_ok]
  | cons t ts =>
    rw [modifiers]
    split
    · rw [reads_ok]
    · next negated hnegated =>
      have hmark := isMark_iff.mpr (modifier?_eq_some.mp hnegated)
      exact absurd (startsWith_cons.mpr hmark) (h negated)

theorem modifiers_of_reads (h : Reads (modifiers ts) ms rest) :
    ∃ ws, Begins ts ws rest ∧ Grammar.Modifiers ws ms := by
  induction ms generalizing ts with
  | nil =>
    by_cases hstart : ∃ negated, StartsWith ts (modifierMark negated)
    · obtain ⟨negated, ts₁, hstart⟩ := hstart
      obtain ⟨_, _, _, _, _, _, _, heq⟩ := (reads_modifiers_of_begins hstart).mp h
      cases heq
    · obtain ⟨-, rfl⟩ := (reads_modifiers_of_not_startsWith (not_exists.mp hstart)).mp h
      exact ⟨[], begins_nil.mpr rfl, .nil⟩
  | cons m ms ih =>
    by_cases hstart : ∃ negated, StartsWith ts (modifierMark negated)
    · obtain ⟨negated, ts₁, hstart⟩ := hstart
      obtain ⟨count, rest₁, hcount, rest₂, hat, ms', hms, heq⟩ :=
        (reads_modifiers_of_begins hstart).mp h
      cases heq
      obtain ⟨ws, hws, hmodifiers⟩ := ih hms
      by_cases hparen : StartsWith ts₁ .leftParen
      · obtain ⟨ts₂, hopen⟩ := hparen
        obtain ⟨hpos, hint⟩ := (reads_modifierCount_of_begins hopen).mp hcount
        refine ⟨_, ?_, .counted negated hpos hmodifiers⟩
        obtain ⟨ts₃, hint, hclose⟩ := begins_cons.mp hint
        exact begins_cons.mpr ⟨ts₁, hstart, begins_cons.mpr ⟨ts₂, hopen, begins_cons.mpr ⟨ts₃, hint,
          begins_cons.mpr ⟨rest₁, hclose, begins_cons.mpr ⟨rest₂, hat, hws⟩⟩⟩⟩⟩
      · obtain ⟨rfl, rfl⟩ := (reads_modifierCount_of_not_startsWith hparen).mp hcount
        refine ⟨_, ?_, .single negated hmodifiers⟩
        exact begins_cons.mpr ⟨ts₁, hstart, begins_cons.mpr ⟨rest₂, hat, hws⟩⟩
    · obtain ⟨heq, -⟩ := (reads_modifiers_of_not_startsWith (not_exists.mp hstart)).mp h
      cases heq

theorem reads_of_modifiers {ws : List Token} (h : Grammar.Modifiers ws ms)
    (hws : Begins ts ws rest) (hend : ∀ negated, ¬ StartsWith rest (modifierMark negated)) :
    Reads (modifiers ts) ms rest := by
  induction h generalizing ts with
  | nil =>
    rw [begins_nil] at hws
    subst hws
    exact (reads_modifiers_of_not_startsWith hend).mpr ⟨rfl, rfl⟩
  | single negated _ ih =>
    obtain ⟨ts₁, hstart, hrest⟩ := begins_cons.mp hws
    obtain ⟨ts₂, hat, hws⟩ := begins_cons.mp hrest
    have hcount := (reads_modifierCount_of_not_startsWith (not_startsWith hat nofun)).mpr ⟨rfl, rfl⟩
    exact (reads_modifiers_of_begins hstart).mpr ⟨1, ts₁, hcount, ts₂, hat, _, ih hws, rfl⟩
  | counted negated hcount _ ih =>
    obtain ⟨ts₁, hstart, hrest⟩ := begins_cons.mp hws
    obtain ⟨ts₂, hopen, hrest⟩ := begins_cons.mp hrest
    obtain ⟨ts₃, hint, hrest⟩ := begins_cons.mp hrest
    obtain ⟨ts₄, hclose, hrest⟩ := begins_cons.mp hrest
    obtain ⟨ts₅, hat, hws⟩ := begins_cons.mp hrest
    have hcount := (reads_modifierCount_of_begins hopen).mpr
      ⟨hcount, begins_cons.mpr ⟨ts₃, hint, hclose⟩⟩
    exact (reads_modifiers_of_begins hstart).mpr ⟨_, ts₄, hcount, ts₅, hat, _, ih hws, rfl⟩

end Modifiers

/-! ### Calls -/

/-- A gate is made from a name exactly as the grammar says. -/
theorem resolveGate_eq_ok {name : String} {params : List Angle} {targets : Nat} {gate : Gate} :
    resolveGate name params targets = .ok gate ↔ Grammar.Named name params targets gate := by
  unfold resolveGate
  split
  · next expected hcount =>
    have hknown : ¬ ∀ g : StandardGate, name ∉ g.names := fun h ↦
      nomatch hcount.symm.trans (paramCount?_eq_none.mpr h)
    split
    · next hfind =>
      refine ⟨nofun, fun h ↦ ?_⟩
      cases h with
      | standard hname =>
        exact nomatch hfind.symm.trans (StandardGate.ofName?_eq_some.mpr ⟨hname, rfl⟩)
      | custom hname => exact absurd hname hknown
    · next g hfind =>
      obtain ⟨hname, hparams⟩ := StandardGate.ofName?_eq_some.mp hfind
      constructor
      · intro h
        split at h
        · next harity =>
          cases h
          rw [← hparams, ← harity, g.arity_eq_targetCount]
          exact .standard hname
        · cases h
      · intro h
        cases h with
        | standard hname' =>
          have hsame := hfind.symm.trans (StandardGate.ofName?_eq_some.mpr ⟨hname', rfl⟩)
          cases hsame
          exact if_pos g.arity_eq_targetCount
        | custom hname' => exact absurd hname' hknown
  · next hcount =>
    have hunknown := paramCount?_eq_none.mp hcount
    constructor
    · intro h
      split at h
      · next hle =>
        cases h
        exact .custom hunknown (Nat.lt_of_le_pred (by decide) hle)
      · cases h
    · intro h
      cases h with
      | standard hname => exact absurd hname (hunknown _)
      | custom _ hlt => exact if_pos (Nat.le_pred_of_lt hlt)

section Calls

variable {scope : List Declaration} {blockGuards : List Guard} {ts rest : Tokens}
  {ms : List Modifier} {name : String} {params : List Angle} {operands : List Qubit}
  {a : Application}

/-- The guards that modifiers ask for are counted if their number fits in 64 bits. -/
theorem guardCount_eq_ok {n count : Nat} (hn : n < UInt64.size) : guardCount n ms = .ok count ↔
    count = n + (ms.flatMap fun m ↦ List.replicate m.count m.negated).length ∧
      count < UInt64.size := by
  induction ms generalizing n with
  | nil =>
    rw [guardCount]
    constructor
    · intro h
      cases h
      exact ⟨rfl, hn⟩
    · rintro ⟨rfl, -⟩
      rfl
  | cons m ms ih =>
    rw [guardCount, List.flatMap_cons, List.length_append, List.length_replicate, ← Nat.add_assoc]
    split
    · next hlt => exact ih hlt
    · refine ⟨nofun, ?_⟩
      rintro ⟨rfl, hlt⟩
      omega

theorem map_zipWith_guard {qs : List Qubit} {flags : List Bool} (h : qs.length = flags.length) :
    (qs.zipWith Guard.mk flags).map Guard.qubit = qs ∧
      (qs.zipWith Guard.mk flags).map Guard.negated = flags := by
  induction qs generalizing flags with
  | nil =>
    rw [List.eq_nil_of_length_eq_zero h.symm]
    exact ⟨rfl, rfl⟩
  | cons q qs ih =>
    cases flags with
    | nil => cases h
    | cons flag flags =>
      obtain ⟨hqubits, hnegated⟩ := ih (Nat.succ.inj h)
      exact ⟨congrArg (q :: ·) hqubits, congrArg (flag :: ·) hnegated⟩

/-- The first operands become guards as the grammar says. -/
theorem applyModifiers_eq_ok : applyModifiers blockGuards ms name params operands = .ok a ↔
    ∃ guards targets gate, operands = guards.map Guard.qubit ++ targets ∧
      guards.map Guard.negated = (ms.flatMap fun m ↦ List.replicate m.count m.negated) ∧
      guards.length < UInt64.size ∧ targets ≠ [] ∧
      Grammar.Named name params targets.length gate ∧
      a = ⟨gate, targets, blockGuards ++ guards⟩ := by
  unfold applyModifiers
  constructor
  · intro h
    obtain ⟨count, hcount, h⟩ := Run.bind_eq_ok.mp h
    obtain ⟨rfl, hfits⟩ := (guardCount_eq_ok (by decide)).mp hcount
    rw [Nat.zero_add] at h hfits
    generalize (ms.flatMap fun m ↦ List.replicate m.count m.negated) = flags at h hfits ⊢
    dsimp only at h
    split at h
    · cases h
    next hlength =>
    obtain ⟨gate, hgate, heq⟩ := Run.bind_eq_ok.mp h
    cases heq
    have hqubits : (operands.take flags.length).length = flags.length := by
      rw [List.length_take]
      omega
    obtain ⟨hqubits, hnegated⟩ := map_zipWith_guard hqubits
    refine ⟨_, _, gate, ?_, hnegated, ?_, ?_, resolveGate_eq_ok.mp hgate, rfl⟩
    · rw [hqubits, List.take_append_drop]
    · rwa [← List.length_map Guard.negated, hnegated]
    · rw [ne_eq, List.drop_eq_nil_iff]
      exact hlength
  · rintro ⟨guards, targets, gate, rfl, hflags, hfits, htargets, hgate, rfl⟩
    have hcount : guardCount 0 ms = .ok guards.length :=
      (guardCount_eq_ok (by decide)).mpr
        ⟨by rw [← hflags, List.length_map, Nat.zero_add], hfits⟩
    have hlength : (guards.map Guard.negated).length = (guards.map Guard.qubit).length := by
      rw [List.length_map, List.length_map]
    have hmore :
        ¬ (guards.map Guard.qubit ++ targets).length ≤ (guards.map Guard.qubit).length := by
      have := List.length_pos_iff.mpr htargets
      rw [List.length_append]
      omega
    refine Run.bind_eq_ok.mpr ⟨_, hcount, ?_⟩
    dsimp only
    rw [← hflags, ← List.length_map Guard.qubit, if_neg hmore, List.take_left, List.drop_left,
      resolveGate_eq_ok.mpr hgate, List.zipWith_map, List.zipWith_self, List.map_id']
    rfl

/-- What is read as a call is one by the grammar. -/
theorem call_of_reads (h : Reads (gateCall scope blockGuards ts) a rest) :
    ∃ ws, Begins ts ws rest ∧ Grammar.Call scope blockGuards ws a := by
  unfold gateCall at h
  obtain ⟨ms, rest₁, _, hms, h⟩ := exists_of_reads_bind h
  obtain ⟨name, rest₂, _, hname, h⟩ := exists_of_reads_bind h
  obtain ⟨params, rest₃, _, hparams, h⟩ := exists_of_reads_bind h
  obtain ⟨q, rest₄, _, hq, h⟩ := exists_of_reads_bind h
  obtain ⟨qs, rest₅, _, hqs, h⟩ := exists_of_reads_bind h
  obtain ⟨_, rest₆, _, hsemicolon, h⟩ := exists_of_reads_bind h
  obtain ⟨_, hbind⟩ := h
  obtain ⟨a', happly, heq⟩ := Run.bind_eq_ok.mp hbind
  cases heq
  obtain ⟨mws, hmws, hmodifiers⟩ := modifiers_of_reads hms
  obtain ⟨pws, hpws, hparams⟩ := parameters_of_reads hparams
  obtain ⟨ows, hows, hoperands⟩ := readsFurther_references.separated reference_of_reads hq hqs
  obtain ⟨guards, targets, gate, hsplit, hflags, hcount, htargets, hgate, rfl⟩ :=
    applyModifiers_eq_ok.mp happly
  rw [reads_expectIdentifier] at hname
  rw [reads_expectMark] at hsemicolon
  rw [hsplit] at hoperands
  refine ⟨_, ?_, .mk hmodifiers hparams hoperands hflags hcount htargets hgate⟩
  exact begins_append.mpr ⟨rest₁, hmws, begins_cons.mpr ⟨rest₂, hname, begins_append.mpr
    ⟨rest₃, hpws, begins_append.mpr ⟨rest₅, hows, hsemicolon⟩⟩⟩⟩

theorem reads_of_call (hscope : (scope.map Declaration.name).Nodup) {ws : List Token}
    (h : Grammar.Call scope blockGuards ws a) (hws : Begins ts ws rest) :
    Reads (gateCall scope blockGuards ts) a rest := by
  cases h with
  | @mk ms name params guards targets gate _ _ _ hmodifiers hparams hoperands hguards hcount
      htargets hgate =>
    obtain ⟨ts₁, hmws, hrest⟩ := begins_append.mp hws
    obtain ⟨ts₂, hname, hrest⟩ := begins_cons.mp hrest
    obtain ⟨ts₃, hpws, hrest⟩ := begins_append.mp hrest
    obtain ⟨ts₄, hows, hsemicolon⟩ := begins_append.mp hrest
    obtain ⟨q, qs, ts₅, hsplit, hq, hqs⟩ := readsFurther_references.reads_of_separated
      (reads_of_reference hscope) (not_startsWith · nofun) hoperands hows
      (not_startsWith hsemicolon nofun) (not_startsWith hsemicolon nofun)
    obtain ⟨_, _, hident⟩ := exists_identifier_of_reference hq
    have happly : applyModifiers blockGuards ms name params (q :: qs) = .ok _ :=
      applyModifiers_eq_ok.mpr
        ⟨guards, targets, gate, hsplit, hguards, hcount, htargets, hgate, rfl⟩
    refine reads_bind_of (reads_of_modifiers hmodifiers hmws
      fun negated ↦ not_startsWith hname nofun) fun _ ↦ ?_
    refine reads_bind_of (reads_expectIdentifier.mpr hname) fun _ ↦ ?_
    refine reads_bind_of (reads_of_parameters hparams hpws (not_startsWith hident nofun)) fun _ ↦ ?_
    refine reads_bind_of hq fun _ ↦ ?_
    refine reads_bind_of hqs fun _ ↦ ?_
    refine reads_bind_of (reads_expectMark.mpr hsemicolon) (a := ()) fun _ ↦ ?_
    dsimp only
    rw [happly]
    exact reads_ok.mpr ⟨rfl, rfl⟩

end Calls

end Source

end Peephole
