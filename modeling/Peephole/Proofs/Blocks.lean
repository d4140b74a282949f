import Peephole.Proofs.Validity

/-!
# Blocks as guards

A block stands for its body, with its qubit as a guard in front of the guards of each gate. Blocks
inside each other give their guards from the outermost to the innermost, and what comes after a
block is read as if the block had not been there (`parseTokens_block`).

Two facts carry this. Statements without declarations may be put into further blocks, and then their
gates have further guards (`Grammar.Statements.within`). And a program is read up to its end
wherever it stands in front of other statements, since every statement has a last token of its own
(`parseTokens_append`).
-/

set_option autoImplicit false
set_option relaxedAutoImplicit false

namespace Peephole

/-- An application with further guards in front of its own. -/
def Application.within (outer : List Guard) (a : Application) : Application :=
  ⟨a.gate, a.targets, outer ++ a.guards⟩

theorem Program.declarations_map_apply (as : List Application) :
    declarations (as.map .apply) = [] := by
  rw [declarations, List.filterMap_map]
  exact List.filterMap_eq_nil_iff.mpr fun _ _ ↦ rfl

theorem Program.Valid.nodup_names {scope : List Declaration} {p : Program} (h : p.Valid scope)
    (hscope : (scope.map Declaration.name).Nodup) :
    ((scope ++ p.declarations).map Declaration.name).Nodup := by
  induction p generalizing scope with
  | nil => simpa [declarations] using hscope
  | cons i p ih =>
    cases i with
    | apply a => exact ih h.2 hscope
    | declare d =>
      rw [declarations_declare, ← List.singleton_append, ← List.append_assoc]
      refine ih h.2 ?_
      rw [List.map_append, List.nodup_append]
      exact ⟨hscope, by simp, by simpa using h.1.fresh⟩

namespace Source

namespace Grammar

/-! ### Statements in further blocks -/

/-- The words that open blocks, each block inside the one before it, with their qubits. -/
inductive Openings (scope : List Declaration) : List Token → List Qubit → Prop where
  | nil : Openings scope [] []
  | cons {ws vs : List Token} {q : Qubit} {qs : List Qubit} (hq : Reference scope ws q)
      (inner : Openings scope vs qs) :
      Openings scope (.mark .qif :: (ws ++ .mark .begin :: vs)) (q :: qs)

variable {scope : List Declaration} {blockGuards : List Guard} {ws vs : List Token}
  {is : List Instruction}

theorem Call.within {a : Application} (h : Call scope blockGuards ws a) (outer : List Guard) :
    Call scope (outer ++ blockGuards) ws (a.within outer) := by
  obtain ⟨hmodifiers, hparams, hoperands, hguards, hcount, htargets, hgate⟩ := h
  simp only [Application.within, ← List.append_assoc outer]
  exact .mk hmodifiers hparams hoperands hguards hcount htargets hgate

theorem Declares.qubit_mem {d : Declaration} (h : Declares scope ws d) : .mark .qubit ∈ ws := by
  cases h <;> exact List.mem_cons_self

/-- Statements without declarations are applications only, and in further blocks these have further
guards. -/
theorem Statements.within (h : Statements scope blockGuards ws is) (hws : .mark .qubit ∉ ws) :
    ∃ as : List Application, is = as.map .apply ∧ ∀ outer : List Guard,
      Statements scope (outer ++ blockGuards) ws ((as.map (·.within outer)).map .apply) := by
  induction h with
  | nil => exact ⟨[], rfl, fun _ ↦ .nil⟩
  | empty _ ih =>
    obtain ⟨as, rfl, has⟩ := ih fun h ↦ hws (List.mem_cons_of_mem _ h)
    exact ⟨as, rfl, fun outer ↦ .empty (has outer)⟩
  | inclusion file _ ih =>
    obtain ⟨as, rfl, has⟩ := ih fun h ↦ hws (by simp [h])
    exact ⟨as, rfl, fun outer ↦ .inclusion file (has outer)⟩
  | declaration hd _ _ => exact absurd (List.mem_append_left _ hd.qubit_mem) hws
  | call ha _ ih =>
    obtain ⟨as, rfl, has⟩ := ih fun h ↦ hws (List.mem_append_right _ h)
    exact ⟨_ :: as, rfl, fun outer ↦ .call (ha.within outer) (has outer)⟩
  | block hq _ _ ihbody ih =>
    obtain ⟨bs, rfl, hbs⟩ := ihbody fun h ↦ hws (by simp [h])
    obtain ⟨as, rfl, has⟩ := ih fun h ↦ hws (by simp [h])
    refine ⟨bs ++ as, List.map_append.symm, fun outer ↦ ?_⟩
    rw [List.map_append, List.map_append]
    refine .block hq ?_ (has outer)
    rw [List.append_assoc]
    exact hbs outer

/-- Statements with the words that open blocks in front, and as many closing words behind. -/
theorem Openings.statements {qs : List Qubit} (h : Openings scope vs qs)
    (hbody : Statements scope (blockGuards ++ qs.map (⟨·, false⟩)) ws is) :
    Statements scope blockGuards (vs ++ (ws ++ List.replicate qs.length (.mark .close))) is := by
  induction h generalizing blockGuards with
  | nil => simpa using hbody
  | @cons us vs q qs hq inner ih =>
    have hblock := Statements.block hq (ih (by simpa using hbody)) .nil
    rw [List.append_nil] at hblock
    simpa [List.replicate_succ'] using hblock

end Grammar

/-! ### Programs in front of statements -/

section Programs

variable {D B opening closing : Tokens} {p r : Program}

theorem header_append {rest : Tokens} (h : header D = .ok rest) (hne : D ≠ []) (more : Tokens) :
    header (D ++ more) = .ok (rest ++ more) := by
  by_cases hversion : StartsWith D .version
  · obtain ⟨ts, hversion⟩ := hversion
    obtain ⟨number, hnumber, hrest⟩ := (header_of_begins hversion).mp h
    exact (header_of_begins (hversion.append more)).mpr ⟨number, hnumber, hrest.append more⟩
  · obtain rfl := (header_of_not_startsWith hversion).mp h
    refine (header_of_not_startsWith ?_).mpr rfl
    cases D with
    | nil => exact absurd rfl hne
    | cons t D => exact fun h ↦ hversion (startsWith_cons.mpr (startsWith_cons.mp h))

/-- After a program the other statements are read in the scope of its declarations. -/
theorem parseTokens_append (h : parseTokens D = .ok p) (hne : D ≠ []) (more : Tokens) :
    parseTokens (D ++ more) = (statements p.declarations [] more).map (p ++ ·) := by
  obtain ⟨rest, hheader, hstatements⟩ := Run.bind_eq_ok.mp h
  have hreads := readsAll_of_statements (statements_of_eq_ok hstatements) List.nodup_nil
  rw [parseTokens, header_append hheader hne more]
  exact hreads.outside rfl ⟨rest, rfl, rfl⟩

/-- What a body stands for in front of other tokens, with the words that open blocks in front of it
and as many closing words behind. -/
theorem statements_openings {scope : List Declaration} {as : List Application} {qs : List Qubit}
    (hscope : (scope.map Declaration.name).Nodup)
    (hopening : Grammar.Openings scope (opening.map Located.token) qs)
    (hclosing : closing.map Located.token = List.replicate qs.length (.mark .close))
    (hbody : ∀ outer : List Guard, Grammar.Statements scope outer (B.map Located.token)
      ((as.map (·.within outer)).map .apply)) (more : Tokens) :
    statements scope [] (opening ++ B ++ closing ++ more) = (statements scope [] more).map
      ((as.map (·.within (qs.map (⟨·, false⟩)))).map .apply ++ ·) := by
  have hnested := hopening.statements (hbody ([] ++ qs.map (⟨·, false⟩)))
  have hbegins : Begins (opening ++ B ++ closing ++ more) (opening.map Located.token ++
      (B.map Located.token ++ List.replicate qs.length (.mark .close))) more :=
    ⟨opening ++ B ++ closing, rfl, by simp [hclosing]⟩
  rw [(readsAll_of_statements hnested hscope).outside rfl hbegins, Program.declarations_map_apply,
    List.append_nil, List.nil_append]

/-- There is nothing to refer to after no tokens. -/
theorem ne_nil_of_reference {words : List Token} {q : Qubit} (hD : parseTokens D = .ok p)
    (hq : Grammar.Reference p.declarations words q) : D ≠ [] := by
  rintro rfl
  have hp : statements [] [] [] = .ok p := hD
  rw [statements] at hp
  cases hp
  obtain ⟨d, hd, -⟩ := hq.resolves
  cases hd

/-- A block around statements without declarations puts a guard on its qubit in front of the guards
of each gate in it. With several blocks around them the guards stand from the outermost to the
innermost, and what follows the blocks has none of them. -/
theorem parseTokens_block {words : List Token} {q : Qubit} (hD : parseTokens D = .ok p)
    (hDB : parseTokens (D ++ B) = .ok r) (hB : ∀ t ∈ B, t.token ≠ .mark .qubit)
    (hq : Grammar.Reference p.declarations words q)
    (hopening : opening.map Located.token = .mark .qif :: (words ++ [.mark .begin]))
    (hclosing : closing.map Located.token = [.mark .close]) :
    ∃ as : List Application, r = p ++ as.map .apply ∧
      parseTokens (D ++ opening ++ B ++ closing) =
        .ok (p ++ (as.map (·.within [⟨q, false⟩])).map .apply) ∧
      ∀ (qs : List Qubit) (openings closings more : Tokens) (others : Program),
        Grammar.Openings p.declarations (openings.map Located.token) qs →
        closings.map Located.token = List.replicate qs.length (.mark .close) →
        parseTokens (D ++ B ++ more) = .ok (r ++ others) →
          parseTokens (D ++ openings ++ B ++ closings ++ more) =
            .ok (p ++ (as.map (·.within (qs.map (⟨·, false⟩)))).map .apply ++ others) := by
  have hne := ne_nil_of_reference hD hq
  have hscope : (p.declarations.map Declaration.name).Nodup :=
    (text_of_parseTokens hD).valid.nodup_names List.nodup_nil
  obtain ⟨is, his, rfl⟩ := Run.map_eq_ok.mp ((parseTokens_append hD hne B).symm.trans hDB)
  have hwords : .mark .qubit ∉ B.map Located.token := by simpa using hB
  obtain ⟨as, rfl, has⟩ := (statements_of_eq_ok his).within hwords
  simp only [List.append_nil] at has
  have hblocks {qs : List Qubit} {openings closings : Tokens} (more : Tokens)
      (hopenings : Grammar.Openings p.declarations (openings.map Located.token) qs)
      (hclosings : closings.map Located.token = List.replicate qs.length (.mark .close)) :
      parseTokens (D ++ openings ++ B ++ closings ++ more) =
        ((statements p.declarations [] more).map
          ((as.map (·.within (qs.map (⟨·, false⟩)))).map .apply ++ ·)).map (p ++ ·) := by
    rw [← statements_openings hscope hopenings hclosings has, ← parseTokens_append hD hne]
    simp only [List.append_assoc]
  refine ⟨as, rfl, ?_, fun qs openings closings more others hopenings hclosings hmore ↦ ?_⟩
  · have hone : Grammar.Openings p.declarations (opening.map Located.token) [q] :=
      hopening ▸ .cons hq .nil
    rw [← List.append_nil (D ++ opening ++ B ++ closing), hblocks [] hone hclosing, statements]
    exact congrArg (fun is ↦ Except.ok (p ++ is)) (List.append_nil _)
  · have hdeclared : Program.declarations (p ++ as.map .apply) = p.declarations := by
      rw [Program.declarations_append, Program.declarations_map_apply, List.append_nil]
    rw [parseTokens_append hDB (List.append_ne_nil_of_left_ne_nil hne B), hdeclared] at hmore
    obtain ⟨others', hothers, heq⟩ := Run.map_eq_ok.mp hmore
    rw [hblocks more hopenings hclosings, hothers, List.append_cancel_left heq]
    exact congrArg Except.ok (List.append_assoc _ _ _).symm

/-- A block around another block, whose gate has a guard of its own. -/
theorem parseTokens_block_nested :
    let located := List.map (Located.mk 1)
    let slot (index : Nat) : List Token :=
      [.identifier "c", .mark .leftBracket, .int index, .mark .rightBracket]
    let D := located [.mark .qubit, .identifier "a", .mark .semicolon, .mark .qubit,
      .mark .leftBracket, .int 3, .mark .rightBracket, .identifier "c", .mark .semicolon]
    let B := located ([.identifier "h", .identifier "a", .mark .semicolon, .mark .qif] ++ slot 1 ++
      [.mark .begin, .mark .negctrl, .mark .atSign, .identifier "x"] ++ slot 2 ++
      [.mark .comma, .identifier "a", .mark .semicolon, .mark .close])
    let opening := located (.mark .qif :: (slot 0 ++ [.mark .begin]))
    let closing := located [.mark .close]
    let c (index : Nat) : Qubit := ⟨"c", some index⟩
    ∃ (p r : Program) (as : List Application), parseTokens D = .ok p ∧
      parseTokens (D ++ B) = .ok r ∧ (∀ t ∈ B, t.token ≠ .mark .qubit) ∧
      Grammar.Reference p.declarations (slot 0) (c 0) ∧ r = p ++ as.map .apply ∧
      r.applications.map Application.guards = [[], [⟨c 1, false⟩, ⟨c 2, true⟩]] ∧
      ∃ s : Program, parseTokens (D ++ opening ++ B ++ closing) = .ok s ∧
        s = p ++ (as.map (·.within [⟨c 0, false⟩])).map .apply ∧
        s.applications.map Application.guards =
          [[⟨c 0, false⟩], [⟨c 0, false⟩, ⟨c 1, false⟩, ⟨c 2, true⟩]] := by
  intro located slot D B opening closing c
  have hp : (parseTokens D).toOption.map Program.declarations =
      some [⟨"a", none⟩, ⟨"c", some 3⟩] := by decide +kernel
  obtain ⟨p, hD, hdeclarations⟩ := Run.toOption_map_eq_some.mp hp
  have hr : (parseTokens (D ++ B)).toOption.map (·.applications.map Application.guards) =
      some [[], [⟨c 1, false⟩, ⟨c 2, true⟩]] := by decide +kernel
  obtain ⟨r, hDB, hguards⟩ := Run.toOption_map_eq_some.mp hr
  have hB : ∀ t ∈ B, t.token ≠ .mark .qubit := by simp [B, located, slot]
  have hq : Grammar.Reference p.declarations (slot 0) (c 0) := by
    rw [hdeclarations]
    exact .slot (d := ⟨"c", some 3⟩) (by simp) rfl (by decide)
  have hopening : opening.map Located.token = .mark .qif :: (slot 0 ++ [.mark .begin]) := rfl
  have hclosing : closing.map Located.token = [.mark .close] := rfl
  obtain ⟨as, happlied, hblock, -⟩ := parseTokens_block hD hDB hB hq hopening hclosing
  have hs : (parseTokens (D ++ opening ++ B ++ closing)).toOption.map
      (·.applications.map Application.guards) =
      some [[⟨c 0, false⟩], [⟨c 0, false⟩, ⟨c 1, false⟩, ⟨c 2, true⟩]] := by decide +kernel
  rw [hblock] at hs
  exact ⟨p, r, as, hD, hDB, hB, hq, happlied, hguards, _, hblock, rfl, Option.some.inj hs⟩

end Programs

end Source

end Peephole
