import Peephole.Proofs.Calls

/-!
# Programs by the grammar

The parser accepts the words of the grammar and nothing else, and it gives the program that they
stand for (`parseTokens_eq_ok_iff`).

Every statement leaves the guards of the blocks as it found them: what a block pushes it pops
(`guards_eq_of_statement`). So the guards that a statement is read with are those of the blocks
around it.

A statement is sound in front of whatever follows it: if its words stand in front of statements of
the grammar, the whole is statements of the grammar (`statement_of_reads`). Blocks and programs are
then lists of such statements. For the other direction `ReadsAll` puts blocks and programs together,
since the rules of the grammar are the same for both.
-/

set_option autoImplicit false
set_option relaxedAutoImplicit false

namespace Peephole

theorem Program.declarations_append (p q : Program) :
    declarations (p ++ q) = p.declarations ++ q.declarations :=
  List.filterMap_append

namespace Source

/-! ### Declarations -/

section Declarations

variable {scope : List Declaration} {ts ts₁ rest : Tokens} {size : Option Nat} {d : Declaration}

theorem reads_registerSize_of_begins (h : Begins ts [.mark .leftBracket] ts₁) :
    Reads (registerSize ts) size rest ↔
      ∃ n, some n = size ∧ 1 ≤ n ∧ n < UInt32.size ∧
        Begins ts₁ [.int n, .mark .rightBracket] rest := by
  obtain ⟨line, rfl⟩ := begins_singleton.mp h
  rw [registerSize, if_pos (isMark_iff.mpr rfl)]
  constructor
  · intro hreads
    obtain ⟨⟨n, line'⟩, rest₁, _, hint, hreads⟩ := exists_of_reads_bind hreads
    obtain ⟨_, rest₂, _, hclose, hreads⟩ := exists_of_reads_bind hreads
    rw [reads_expectInteger] at hint
    rw [reads_expectMark] at hclose
    dsimp only at hreads
    split at hreads
    · exact (reads_throw.mp hreads).elim
    next hrange =>
    obtain ⟨rfl, rfl⟩ := reads_ok.mp hreads
    simp only [Bool.or_eq_true, decide_eq_true_eq, not_or, Nat.not_lt] at hrange
    exact ⟨n, rfl, Nat.pos_of_ne_zero hrange.1, Nat.lt_of_le_pred (by decide) hrange.2,
      begins_cons.mpr ⟨rest₁, begins_singleton.mpr ⟨line', hint⟩, hclose⟩⟩
  · rintro ⟨n, rfl, hpos, hmax, hrest⟩
    obtain ⟨ts₂, hint, hclose⟩ := begins_cons.mp hrest
    obtain ⟨line', rfl⟩ := begins_singleton.mp hint
    refine reads_bind_of (reads_expectInteger.mpr rfl) fun _ ↦ ?_
    refine reads_bind_of (reads_expectMark.mpr hclose) (a := ()) fun _ ↦ ?_
    dsimp only
    have hrange : ¬ (decide (n = 0) || decide (maxSize < n)) = true := by
      simp only [Bool.or_eq_true, decide_eq_true_eq, not_or, Nat.not_lt]
      exact ⟨Nat.ne_of_gt hpos, Nat.le_pred_of_lt hmax⟩
    rw [if_neg hrange]
    exact reads_ok.mpr ⟨rfl, rfl⟩

theorem reads_registerSize_of_not_startsWith (h : ¬ StartsWith ts .leftBracket) :
    Reads (registerSize ts) size rest ↔ none = size ∧ ts = rest := by
  cases ts with
  | nil => rw [registerSize, reads_ok]
  | cons t ts => rw [registerSize, if_neg fun hm ↦ h (startsWith_cons.mpr hm), reads_ok]

theorem reads_declaration : Reads (declaration scope ts) d rest ↔
    ∃ rest₁, Reads (registerSize ts) d.size rest₁ ∧
      Begins rest₁ [.identifier d.name, .mark .semicolon] rest ∧
      ∀ d' ∈ scope, d'.name ≠ d.name := by
  unfold declaration
  constructor
  · intro h
    obtain ⟨size, rest₁, _, hsize, h⟩ := exists_of_reads_bind h
    obtain ⟨name, rest₂, _, hname, h⟩ := exists_of_reads_bind h
    obtain ⟨_, rest₃, _, hsemicolon, h⟩ := exists_of_reads_bind h
    rw [reads_expectIdentifier] at hname
    rw [reads_expectMark] at hsemicolon
    dsimp only at h
    split at h
    · exact (reads_throw.mp h).elim
    next hfresh =>
    obtain ⟨rfl, rfl⟩ := reads_ok.mp h
    exact ⟨rest₁, hsize, begins_cons.mpr ⟨rest₂, hname, hsemicolon⟩, by simpa using hfresh⟩
  · rintro ⟨rest₁, hsize, hrest, hfresh⟩
    obtain ⟨rest₂, hname, hsemicolon⟩ := begins_cons.mp hrest
    refine reads_bind_of hsize fun _ ↦ ?_
    refine reads_bind_of (reads_expectIdentifier.mpr hname) fun _ ↦ ?_
    refine reads_bind_of (reads_expectMark.mpr hsemicolon) (a := ()) fun _ ↦ ?_
    dsimp only
    rw [if_neg (by simpa using hfresh)]
    exact reads_ok.mpr ⟨rfl, rfl⟩

theorem declares_of_reads (hqubit : Begins ts [.mark .qubit] ts₁)
    (h : Reads (declaration scope ts₁) d rest) :
    ∃ ws, Begins ts ws rest ∧ Grammar.Declares scope ws d := by
  obtain ⟨name, size⟩ := d
  obtain ⟨rest₁, hsize, hname, hfresh⟩ := reads_declaration.mp h
  by_cases hopen : StartsWith ts₁ .leftBracket
  · obtain ⟨ts₂, hopen⟩ := hopen
    obtain ⟨n, rfl, hpos, hmax, hint⟩ := (reads_registerSize_of_begins hopen).mp hsize
    refine ⟨_, ?_, .register hfresh hpos hmax⟩
    obtain ⟨ts₃, hint, hclose⟩ := begins_cons.mp hint
    exact begins_cons.mpr ⟨ts₁, hqubit, begins_cons.mpr ⟨ts₂, hopen, begins_cons.mpr ⟨ts₃, hint,
      begins_cons.mpr ⟨rest₁, hclose, hname⟩⟩⟩⟩
  · obtain ⟨rfl, rfl⟩ := (reads_registerSize_of_not_startsWith hopen).mp hsize
    exact ⟨_, begins_cons.mpr ⟨ts₁, hqubit, hname⟩, .single hfresh⟩

theorem reads_of_declares {ws : List Token} (h : Grammar.Declares scope ws d)
    (hws : Begins ts ws rest) :
    ∃ ts₁, Begins ts [.mark .qubit] ts₁ ∧ Reads (declaration scope ts₁) d rest := by
  cases h with
  | single hfresh =>
    obtain ⟨ts₁, hqubit, hname⟩ := begins_cons.mp hws
    obtain ⟨_, hident, -⟩ := begins_cons.mp hname
    exact ⟨ts₁, hqubit, reads_declaration.mpr ⟨ts₁,
      (reads_registerSize_of_not_startsWith (not_startsWith hident nofun)).mpr ⟨rfl, rfl⟩,
      hname, hfresh⟩⟩
  | register hfresh hpos hmax =>
    obtain ⟨ts₁, hqubit, hrest⟩ := begins_cons.mp hws
    obtain ⟨ts₂, hopen, hrest⟩ := begins_cons.mp hrest
    obtain ⟨ts₃, hint, hrest⟩ := begins_cons.mp hrest
    obtain ⟨ts₄, hclose, hname⟩ := begins_cons.mp hrest
    exact ⟨ts₁, hqubit, reads_declaration.mpr ⟨ts₄,
      (reads_registerSize_of_begins hopen).mpr
        ⟨_, rfl, hpos, hmax, begins_cons.mpr ⟨ts₃, hint, hclose⟩⟩, hname, hfresh⟩⟩

end Declarations

/-! ### Statements -/

section Statements

variable {scope : List Declaration} {guards : List Guard} {ts ts₁ rest : Tokens} {w : Token}
  {first is : List Instruction} {r : List Instruction × List Guard}

theorem reads_statement_empty (h : Begins ts [.mark .semicolon] ts₁) :
    Reads (statement scope guards ts) r rest ↔ ([], guards) = r ∧ ts₁ = rest := by
  obtain ⟨line, rfl⟩ := begins_singleton.mp h
  rw [statement]
  exact reads_ok

theorem reads_statement_inclusion (h : Begins ts [.mark .inclusion] ts₁) :
    Reads (statement scope guards ts) r rest ↔
      ([], guards) = r ∧ ∃ file, Begins ts₁ [.string file, .mark .semicolon] rest := by
  obtain ⟨line, rfl⟩ := begins_singleton.mp h
  rw [statement]
  refine (reads_bind fun file rest₁ h₁ ↦ reads_map (k := fun _ ↦ ([], guards)) fun _ _ h₂ ↦
    Nat.lt_succ_of_lt (Nat.lt_trans h₂ h₁)).trans ?_
  simp only [reads_expectString, reads_expectMark, begins_pair]
  grind

theorem reads_statement_declaration (h : Begins ts [.mark .qubit] ts₁) :
    Reads (statement scope guards ts) r rest ↔
      guards = [] ∧ ∃ d, Reads (declaration scope ts₁) d rest ∧ ([.declare d], guards) = r := by
  obtain ⟨line, rfl⟩ := begins_singleton.mp h
  rw [statement]
  cases guards with
  | nil =>
    change Reads (declaration scope ts₁ >>= _) r rest ↔ _
    rw [eq_self, true_and]
    exact reads_map (k := fun d ↦ ([Instruction.declare d], [])) fun _ _ h₁ ↦ Nat.lt_succ_of_lt h₁
  | cons guard guards =>
    refine reads_error.trans (false_iff _ |>.mpr ?_)
    rintro ⟨hnil, -⟩
    cases hnil

theorem reads_statement_call (h : Begins ts [w] ts₁) (hw : w.statement? = some .call) :
    Reads (statement scope guards ts) r rest ↔
      ∃ a, Reads (gateCall scope guards ts) a rest ∧ ([.apply a], guards) = r := by
  obtain ⟨line, rfl⟩ := begins_singleton.mp h
  rw [statement, hw]
  change Reads (gateCall scope guards _ >>= _) r rest ↔ _
  exact reads_map (k := fun a ↦ ([Instruction.apply a], guards)) fun _ _ h₁ ↦ h₁

/-- A block is read with its guard pushed, and a guard is popped from what its body leaves. -/
theorem reads_statement_qif (h : Begins ts [.mark .qif] ts₁) :
    Reads (statement scope guards ts) r rest ↔
      ∃ q rest₁, Reads (reference scope ts₁) q rest₁ ∧ ∃ rest₂, Begins rest₁ [.mark .begin] rest₂ ∧
        ∃ inner, Reads (block scope (guards ++ [⟨q, false⟩]) rest₂) inner rest ∧
          (inner.1, inner.2.dropLast) = r := by
  obtain ⟨line, rfl⟩ := begins_singleton.mp h
  rw [statement]
  refine reads_bind fun q rest₁ h₁ ↦ ?_
  refine (reads_bind fun _ rest₂ h₂ ↦ (reads_map
    (k := fun inner : List Instruction × List Guard ↦ (inner.1, inner.2.dropLast)) fun _ _ h₃ ↦
    Nat.lt_succ_of_lt (Nat.lt_trans h₃ (Nat.lt_trans h₂ h₁)))).trans ?_
  simp only [reads_expectMark, exists_const]

/-- The mark with which the statements of a kind begin; calls begin with modifiers or names. -/
def StatementKind.mark? : StatementKind → Option Mark
  | inclusion => some .inclusion
  | declaration => some .qubit
  | block => some .qif
  | empty => some .semicolon
  | call => none

theorem eq_mark_of_statement? {kind : StatementKind} {m : Mark} (h : w.statement? = some kind)
    (hm : kind.mark? = some m) : w = .mark m := by
  unfold Token.statement? at h
  split at h <;> cases h <;> cases hm <;> rfl

/-- A statement begins with a token that begins statements. -/
theorem exists_statement?_of_reads (h : Reads (statement scope guards ts) r rest) :
    ∃ w ts₁ kind, Begins ts [w] ts₁ ∧ w.statement? = some kind := by
  cases ts with
  | nil => exact (reads_error.mp (by rwa [statement] at h)).elim
  | cons t ts =>
    cases hkind : t.token.statement? with
    | none =>
      rw [statement] at h
      simp only [hkind] at h
      exact (reads_error.mp h).elim
    | some kind => exact ⟨t.token, ts, kind, begins_singleton.mpr ⟨t.line, rfl⟩, hkind⟩

theorem reads_block_of_begins (h : Begins ts [.mark .close] ts₁) :
    Reads (block scope guards ts) r rest ↔ ([], guards) = r ∧ ts₁ = rest := by
  obtain ⟨line, rfl⟩ := begins_singleton.mp h
  rw [block, if_pos (isMark_iff.mpr rfl), reads_ok]

/-- The statements of a block are read one after the other, each with the guards that the one before
it has left. -/
theorem reads_block_of_not_startsWith (h : ¬ StartsWith ts .close) :
    Reads (block scope guards ts) r rest ↔
      ∃ first rest₁, Reads (statement scope guards ts) first rest₁ ∧
        ∃ others, Reads (block scope first.2 rest₁) others rest ∧
          (first.1 ++ others.1, others.2) = r := by
  cases ts with
  | nil =>
    rw [block, reads_error, false_iff]
    rintro ⟨first, rest₁, hfirst, -⟩
    exact reads_error.mp (by rwa [statement] at hfirst)
  | cons t ts =>
    rw [block, if_neg fun hm ↦ h (startsWith_cons.mpr hm)]
    exact reads_bind fun first rest₁ h₁ ↦
      reads_map (k := fun others : List Instruction × List Guard ↦
        (first.1 ++ others.1, others.2)) fun _ _ h₂ ↦ Nat.lt_trans h₂ h₁

/-! ### The guards of the blocks -/

/-- What is read from some tokens leaves the guards as they were. -/
def Restores (ts : Tokens) : Prop :=
  ∀ scope guards r rest, (Reads (statement scope guards ts) r rest → r.2 = guards) ∧
    (Reads (block scope guards ts) r rest → r.2 = guards)

/-- Only a block changes the guards, and its body leaves them as it finds them. -/
theorem guards_eq_of_reads (ih : ∀ ts' : Tokens, ts'.length < ts.length → Restores ts')
    (h : Reads (statement scope guards ts) r rest) : r.2 = guards := by
  obtain ⟨w, ts₁, kind, hw, hkind⟩ := exists_statement?_of_reads h
  cases kind with
  | empty =>
    obtain rfl : w = .mark .semicolon := eq_mark_of_statement? hkind rfl
    obtain ⟨rfl, -⟩ := (reads_statement_empty hw).mp h
    rfl
  | inclusion =>
    obtain rfl : w = .mark .inclusion := eq_mark_of_statement? hkind rfl
    obtain ⟨rfl, -⟩ := (reads_statement_inclusion hw).mp h
    rfl
  | declaration =>
    obtain rfl : w = .mark .qubit := eq_mark_of_statement? hkind rfl
    obtain ⟨-, d, -, rfl⟩ := (reads_statement_declaration hw).mp h
    rfl
  | call =>
    obtain ⟨a, -, rfl⟩ := (reads_statement_call hw hkind).mp h
    rfl
  | block =>
    obtain rfl : w = .mark .qif := eq_mark_of_statement? hkind rfl
    obtain ⟨q, rest₁, hq, rest₂, hbegin, inner, hinner, rfl⟩ := (reads_statement_qif hw).mp h
    have hlength : rest₂.length < ts.length :=
      Nat.lt_trans hbegin.length_lt (Nat.lt_trans hq.choose hw.length_lt)
    rw [(ih rest₂ hlength scope _ _ rest).2 hinner]
    exact List.dropLast_concat

theorem restores (ts : Tokens) : Restores ts := by
  induction hn : ts.length using Nat.strongRecOn generalizing ts with
  | ind n ihn =>
    have ih : ∀ ts' : Tokens, ts'.length < ts.length → Restores ts' :=
      fun ts' hts' ↦ ihn ts'.length (hn ▸ hts') ts' rfl
    intro scope guards r rest
    refine ⟨guards_eq_of_reads ih, fun h ↦ ?_⟩
    by_cases hclose : StartsWith ts .close
    · obtain ⟨ts₁, hclose⟩ := hclose
      obtain ⟨rfl, -⟩ := (reads_block_of_begins hclose).mp h
      rfl
    · obtain ⟨first, rest₁, hfirst, others, hothers, rfl⟩ :=
        (reads_block_of_not_startsWith hclose).mp h
      rw [(ih rest₁ hfirst.choose scope _ _ rest).2 hothers]
      exact guards_eq_of_reads ih hfirst

/-- A statement leaves the guards of the blocks as they were. -/
theorem guards_eq_of_statement (h : Reads (statement scope guards ts) r rest) : r.2 = guards :=
  (restores ts scope guards r rest).1 h

theorem guards_eq_of_block (h : Reads (block scope guards ts) r rest) : r.2 = guards :=
  (restores ts scope guards r rest).2 h

theorem reads_statement_block (h : Begins ts [.mark .qif] ts₁) :
    Reads (statement scope guards ts) (is, guards) rest ↔
      ∃ q rest₁, Reads (reference scope ts₁) q rest₁ ∧ ∃ rest₂, Begins rest₁ [.mark .begin] rest₂ ∧
        Reads (block scope (guards ++ [⟨q, false⟩]) rest₂) (is, guards ++ [⟨q, false⟩]) rest := by
  rw [reads_statement_qif h]
  constructor
  · rintro ⟨q, rest₁, hq, rest₂, hbegin, ⟨js, inner⟩, hinner, heq⟩
    obtain rfl : inner = _ := guards_eq_of_block hinner
    obtain rfl : js = is := congrArg Prod.fst heq
    exact ⟨q, rest₁, hq, rest₂, hbegin, hinner⟩
  · rintro ⟨q, rest₁, hq, rest₂, hbegin, hinner⟩
    exact ⟨q, rest₁, hq, rest₂, hbegin, _, hinner, by rw [List.dropLast_concat]⟩

theorem reads_block_cons (h : ¬ StartsWith ts .close) :
    Reads (block scope guards ts) (is, guards) rest ↔
      ∃ first rest₁, Reads (statement scope guards ts) (first, guards) rest₁ ∧
        ∃ others, Reads (block scope guards rest₁) (others, guards) rest ∧
          first ++ others = is := by
  rw [reads_block_of_not_startsWith h]
  constructor
  · rintro ⟨⟨first, guards₁⟩, rest₁, hfirst, ⟨others, guards₂⟩, hothers, heq⟩
    obtain rfl : guards₁ = guards := guards_eq_of_statement hfirst
    cases heq
    exact ⟨first, rest₁, hfirst, others, hothers, rfl⟩
  · rintro ⟨first, rest₁, hfirst, others, hothers, rfl⟩
    exact ⟨_, rest₁, hfirst, _, hothers, rfl⟩

theorem statements_eq_ok (hts : ts ≠ []) : statements scope guards ts = .ok is ↔
    ∃ first rest, Reads (statement scope guards ts) (first, guards) rest ∧
      ∃ others, statements (scope ++ Program.declarations first) guards rest = .ok others ∧
        first ++ others = is := by
  cases ts with
  | nil => exact absurd rfl hts
  | cons t ts =>
    rw [statements]
    constructor
    · intro h
      obtain ⟨⟨⟨⟨first, guards₁⟩, rest⟩, hlt⟩, hfirst, h⟩ := Run.bind_eq_ok.mp h
      obtain ⟨others, hothers, heq⟩ := Run.bind_eq_ok.mp h
      cases heq
      obtain rfl : guards₁ = guards := guards_eq_of_statement ⟨hlt, hfirst⟩
      exact ⟨first, rest, ⟨hlt, hfirst⟩, others, hothers, rfl⟩
    · rintro ⟨first, rest, ⟨hlt, hfirst⟩, others, hothers, rfl⟩
      exact Run.bind_eq_ok.mpr ⟨_, hfirst, Run.bind_eq_ok.mpr ⟨others, hothers, rfl⟩⟩

/-- Once a statement is read, the others are read in what is left. -/
theorem statements_of_reads (h : Reads (statement scope guards ts) (first, guards) rest) :
    statements scope guards ts =
      (statements (scope ++ Program.declarations first) guards rest).map (first ++ ·) := by
  cases ts with
  | nil => exact (reads_error.mp (by rwa [statement] at h)).elim
  | cons t ts =>
    obtain ⟨hlt, hfirst⟩ := h
    rw [statements, hfirst]
    change (statements (scope ++ Program.declarations first) guards rest >>= fun others ↦
      pure (first ++ others)) = _
    cases statements (scope ++ Program.declarations first) guards rest <;> rfl

end Statements

/-! ### What is read is in the grammar -/

/-- Nothing is declared within blocks. -/
theorem Grammar.Statements.declarations_eq_nil {scope : List Declaration} {blockGuards : List Guard}
    {ws : List Token} {is : List Instruction} (h : Statements scope blockGuards ws is)
    (hblock : blockGuards ≠ []) : Program.declarations is = [] := by
  unfold Program.declarations
  induction h with
  | nil => rfl
  | empty _ ih => exact ih hblock
  | inclusion _ _ ih => exact ih hblock
  | declaration _ _ _ => exact absurd rfl hblock
  | call _ _ ih => exact ih hblock
  | block _ _ _ ihbody ih => rw [List.filterMap_append, ihbody (by simp), ih hblock]; rfl

section Soundness

variable {scope : List Declaration} {blockGuards : List Guard} {ts rest : Tokens}
  {first is : List Instruction}

/-- The blocks that can be read from some tokens are statements of the grammar and the keyword that
closes them. -/
def BlocksInGrammar (ts : Tokens) : Prop :=
  ∀ scope blockGuards is rest, blockGuards ≠ [] →
    Reads (block scope blockGuards ts) (is, blockGuards) rest →
    ∃ body, Begins ts (body ++ [.mark .close]) rest ∧ Grammar.Statements scope blockGuards body is

/-- A statement that is read may stand in front of statements of the grammar. -/
theorem statement_of_reads (ih : ∀ ts' : Tokens, ts'.length < ts.length → BlocksInGrammar ts')
    (h : Reads (statement scope blockGuards ts) (first, blockGuards) rest) :
    ∃ vs, Begins ts vs rest ∧ ∀ ws is,
      Grammar.Statements (scope ++ Program.declarations first) blockGuards ws is →
        Grammar.Statements scope blockGuards (vs ++ ws) (first ++ is) := by
  obtain ⟨w, ts₁, kind, hw, hkind⟩ := exists_statement?_of_reads h
  cases kind with
  | empty =>
    obtain rfl : w = .mark .semicolon := eq_mark_of_statement? hkind rfl
    obtain ⟨heq, rfl⟩ := (reads_statement_empty hw).mp h
    cases heq
    refine ⟨_, hw, fun ws is hrest ↦ .empty ?_⟩
    rwa [Program.declarations, List.filterMap_nil, List.append_nil] at hrest
  | inclusion =>
    obtain rfl : w = .mark .inclusion := eq_mark_of_statement? hkind rfl
    obtain ⟨heq, file, hfile⟩ := (reads_statement_inclusion hw).mp h
    cases heq
    refine ⟨_, begins_cons.mpr ⟨ts₁, hw, hfile⟩, fun ws is hrest ↦ .inclusion file ?_⟩
    rwa [Program.declarations, List.filterMap_nil, List.append_nil] at hrest
  | declaration =>
    obtain rfl : w = .mark .qubit := eq_mark_of_statement? hkind rfl
    obtain ⟨rfl, d, hd, heq⟩ := (reads_statement_declaration hw).mp h
    cases heq
    obtain ⟨vs, hvs, hdeclares⟩ := declares_of_reads hw hd
    exact ⟨vs, hvs, fun ws is hrest ↦ .declaration hdeclares hrest⟩
  | call =>
    obtain ⟨a, ha, heq⟩ := (reads_statement_call hw hkind).mp h
    cases heq
    obtain ⟨vs, hvs, hcall⟩ := call_of_reads ha
    refine ⟨vs, hvs, fun ws is hrest ↦ .call hcall ?_⟩
    rwa [Program.declarations, List.filterMap_cons_none rfl, List.filterMap_nil,
      List.append_nil] at hrest
  | block =>
    obtain rfl : w = .mark .qif := eq_mark_of_statement? hkind rfl
    obtain ⟨q, rest₁, hq, rest₂, hbegin, hblock⟩ := (reads_statement_block hw).mp h
    obtain ⟨vs, hvs, href⟩ := reference_of_reads hq
    have hlength : rest₂.length < ts.length :=
      Nat.lt_trans hbegin.length_lt (Nat.lt_trans hq.choose hw.length_lt)
    obtain ⟨body, hbody, hstatements⟩ := ih rest₂ hlength scope _ _ rest (by simp) hblock
    refine ⟨.mark .qif :: (vs ++ .mark .begin :: (body ++ [.mark .close])), ?_,
      fun ws is hrest ↦ ?_⟩
    · exact begins_cons.mpr ⟨ts₁, hw, begins_append.mpr ⟨rest₁, hvs,
        begins_cons.mpr ⟨rest₂, hbegin, hbody⟩⟩⟩
    · rw [hstatements.declarations_eq_nil (by simp), List.append_nil] at hrest
      simpa using Grammar.Statements.block href hstatements hrest

theorem blocksInGrammar (ts : Tokens) : BlocksInGrammar ts := by
  induction hn : ts.length using Nat.strongRecOn generalizing ts with
  | ind n ihn =>
    intro scope blockGuards is rest hblock h
    by_cases hclose : StartsWith ts .close
    · obtain ⟨ts₁, hclose⟩ := hclose
      obtain ⟨heq, rfl⟩ := (reads_block_of_begins hclose).mp h
      cases heq
      exact ⟨[], hclose, .nil⟩
    · obtain ⟨first, rest₁, hfirst, others, hothers, rfl⟩ :=
        (reads_block_cons hclose).mp h
      obtain ⟨vs, hvs, hgoes⟩ :=
        statement_of_reads (fun ts' hts' ↦ ihn ts'.length (hn ▸ hts') ts' rfl) hfirst
      obtain ⟨body, hbody, hstatements⟩ := ihn rest₁.length (hn ▸ hfirst.choose) rest₁ rfl
        scope blockGuards others rest hblock hothers
      have hnone : Program.declarations first = [] := by
        have hfirst := hgoes [] [] .nil
        rw [List.append_nil, List.append_nil] at hfirst
        exact hfirst.declarations_eq_nil hblock
      refine ⟨vs ++ body, ?_, hgoes body others (by rwa [hnone, List.append_nil])⟩
      rw [List.append_assoc]
      exact begins_append.mpr ⟨rest₁, hvs, hbody⟩

theorem statements_of_eq_ok {p : Program} (h : statements scope [] ts = .ok p) :
    Grammar.Statements scope [] (ts.map Located.token) p := by
  induction hn : ts.length using Nat.strongRecOn generalizing ts scope p with
  | ind n ihn =>
    by_cases hts : ts = []
    · subst hts
      rw [statements] at h
      cases h
      exact .nil
    · obtain ⟨first, rest, hfirst, others, hothers, rfl⟩ := (statements_eq_ok hts).mp h
      obtain ⟨vs, ⟨used, rfl, rfl⟩, hgoes⟩ :=
        statement_of_reads (fun ts' _ ↦ blocksInGrammar ts') hfirst
      rw [List.map_append]
      exact hgoes _ others (ihn rest.length (hn ▸ hfirst.choose) hothers rfl)

end Soundness

/-! ### What is in the grammar is read -/

section Completeness

variable {scope : List Declaration} {blockGuards : List Guard} {ws vs : List Token}
  {is : List Instruction}

/-- Words are read as some instructions: within a block up to the keyword that closes it, and
outside of blocks in front of any other statements. -/
structure ReadsAll (scope : List Declaration) (blockGuards : List Guard) (ws : List Token)
    (is : List Instruction) : Prop where
  inside (hblock : blockGuards ≠ []) {ts rest : Tokens}
    (hws : Begins ts (ws ++ [.mark .close]) rest) :
    Reads (block scope blockGuards ts) (is, blockGuards) rest
  outside (hblock : blockGuards = []) {ts rest : Tokens} (hws : Begins ts ws rest) :
    statements scope [] ts = (statements (scope ++ Program.declarations is) [] rest).map (is ++ ·)

theorem ReadsAll.nil : ReadsAll scope blockGuards [] [] where
  inside _ _ _ hws := (reads_block_of_begins hws).mpr ⟨rfl, rfl⟩
  outside _ ts rest hws := by
    rw [begins_nil.mp hws, Program.declarations, List.filterMap_nil, List.append_nil]
    cases statements scope [] rest <;> rfl

/-- A statement is read and then the others. -/
theorem ReadsAll.cons (vs : List Token) (first : List Instruction)
    (hnone : blockGuards ≠ [] → Program.declarations first = [])
    (hfirst : ∀ {ts rest}, Begins ts vs rest →
      Reads (statement scope blockGuards ts) (first, blockGuards) rest)
    (hrest : ReadsAll (scope ++ Program.declarations first) blockGuards ws is) :
    ReadsAll scope blockGuards (vs ++ ws) (first ++ is) where
  inside hblock ts rest hws := by
    rw [hnone hblock, List.append_nil] at hrest
    rw [List.append_assoc] at hws
    obtain ⟨rest₁, hvs, hws⟩ := begins_append.mp hws
    have hreads := hfirst hvs
    obtain ⟨w, ts₁, kind, hw, hkind⟩ := exists_statement?_of_reads hreads
    have hclose : ¬ StartsWith ts .close := not_startsWith hw (by rintro rfl; cases hkind)
    exact (reads_block_cons hclose).mpr
      ⟨first, rest₁, hreads, is, hrest.inside hblock hws, rfl⟩
  outside hblock ts rest hws := by
    subst hblock
    obtain ⟨rest₁, hvs, hws⟩ := begins_append.mp hws
    rw [statements_of_reads (hfirst hvs), hrest.outside rfl hws, Program.declarations_append,
      List.append_assoc]
    cases statements _ [] rest with
    | error fault => rfl
    | ok others => exact congrArg Except.ok (List.append_assoc _ _ _).symm

theorem exists_begins_of_call {a : Application} {ts rest : Tokens}
    (h : Grammar.Call scope blockGuards vs a) (hvs : Begins ts vs rest) :
    ∃ w ts₁, Begins ts [w] ts₁ ∧ w.statement? = some .call := by
  obtain ⟨hmodifiers⟩ := h
  cases hmodifiers with
  | nil =>
    obtain ⟨ts₁, hname, -⟩ := begins_cons.mp hvs
    exact ⟨_, ts₁, hname, rfl⟩
  | single negated _ =>
    obtain ⟨ts₁, hmark, -⟩ := begins_cons.mp hvs
    exact ⟨_, ts₁, hmark, by cases negated <;> rfl⟩
  | counted negated _ _ =>
    obtain ⟨ts₁, hmark, -⟩ := begins_cons.mp hvs
    exact ⟨_, ts₁, hmark, by cases negated <;> rfl⟩

/-- In a scope without repeated names the statements of the grammar are read. -/
theorem readsAll_of_statements (h : Grammar.Statements scope blockGuards ws is)
    (hscope : (scope.map Declaration.name).Nodup) : ReadsAll scope blockGuards ws is := by
  induction h with
  | nil => exact .nil
  | empty _ ih =>
    refine .cons [_] [] (fun _ ↦ rfl)
      (fun hvs ↦ (reads_statement_empty hvs).mpr ⟨rfl, rfl⟩) ?_
    simpa [Program.declarations] using ih hscope
  | inclusion file _ ih =>
    refine .cons [_, _, _] [] (fun _ ↦ rfl) (fun hvs ↦ ?_) ?_
    · obtain ⟨ts₁, hw, hfile⟩ := begins_cons.mp hvs
      exact (reads_statement_inclusion hw).mpr ⟨rfl, file, hfile⟩
    · simpa [Program.declarations] using ih hscope
  | @declaration scope d vs ws is hd _ ih =>
    refine .cons _ [.declare d] (fun h ↦ absurd rfl h) (fun hvs ↦ ?_) (ih ?_)
    · obtain ⟨ts₁, hw, hreads⟩ := reads_of_declares hd hvs
      exact (reads_statement_declaration hw).mpr ⟨rfl, d, hreads, rfl⟩
    · have hfresh : ∀ d' ∈ scope, d'.name ≠ d.name := by cases hd <;> assumption
      rw [List.map_append, List.nodup_append]
      exact ⟨hscope, by simp, by simpa using hfresh⟩
  | @call scope blockGuards a vs ws is ha _ ih =>
    refine .cons _ [.apply a] (fun _ ↦ rfl) (fun hvs ↦ ?_) ?_
    · obtain ⟨w, ts₁, hw, hkind⟩ := exists_begins_of_call ha hvs
      exact (reads_statement_call hw hkind).mpr ⟨a, reads_of_call hscope ha hvs, rfl⟩
    · rw [Program.declarations, List.filterMap_cons_none rfl, List.filterMap_nil, List.append_nil]
      exact ih hscope
  | @block scope blockGuards q vs body ws js is hq hbody _ ihbody ih =>
    have hnone : Program.declarations js = [] := hbody.declarations_eq_nil (by simp)
    have hwords : .mark .qif :: (vs ++ .mark .begin :: (body ++ .mark .close :: ws)) =
        (.mark .qif :: (vs ++ .mark .begin :: (body ++ [.mark .close]))) ++ ws := by simp
    rw [hwords]
    refine .cons _ _ (fun _ ↦ hnone) (fun hvs ↦ ?_) ?_
    · obtain ⟨ts₁, hw, hrest⟩ := begins_cons.mp hvs
      obtain ⟨rest₁, hvs, hrest⟩ := begins_append.mp hrest
      obtain ⟨rest₂, hbegin, hrest⟩ := begins_cons.mp hrest
      exact (reads_statement_block hw).mpr ⟨q, rest₁,
        reads_of_reference hscope hq hvs (not_startsWith hbegin nofun), rest₂, hbegin,
        (ihbody hscope).inside (by simp) hrest⟩
    · rw [hnone, List.append_nil]
      exact ih hscope

theorem statements_of_grammar {ts : Tokens} {p : Program}
    (h : Grammar.Statements scope [] (ts.map Located.token) p)
    (hscope : (scope.map Declaration.name).Nodup) : statements scope [] ts = .ok p := by
  have hall : Begins ts (ts.map Located.token) [] := ⟨ts, (List.append_nil ts).symm, rfl⟩
  rw [(readsAll_of_statements h hscope).outside rfl hall, statements]
  exact congrArg Except.ok (List.append_nil p)

end Completeness

/-! ### The header -/

theorem isSupported_iff {version : String} :
    isSupported version = true ↔ version = "3" ∨ ['3', '.'] <+: version.toList := by
  rw [isSupported, Bool.or_eq_true, decide_eq_true_eq, decide_eq_true_eq, List.prefix_iff_eq_take,
    eq_comm (a := version.toList.take 2)]
  rfl

theorem point_notMem_repr (n : Nat) : '.' ∉ n.repr.toList := by
  rw [Nat.toList_repr]
  intro h
  exact absurd (Nat.isDigit_of_mem_toDigits (by decide) (by decide) h) (by decide)

/-- A whole number with a point and a zero behind it begins with 3 and a point only if it is 3. -/
theorem isSupported_repr {n : Nat} :
    isSupported (n.repr ++ ".0") = true ↔ n.repr = "3" ∨ ['3', '.'] <+: n.repr.toList := by
  rw [isSupported_iff, ← String.toList_inj, ← String.toList_inj, String.toList_append]
  have hpoint := point_notMem_repr n
  have hne : n.repr.toList ≠ [] := Nat.toList_repr (n := n) ▸ Nat.toDigits_ne_nil
  match hdigits : n.repr.toList with
  | [] => exact absurd hdigits hne
  | [c] => simp [List.cons_prefix_cons]; grind
  | c :: c' :: cs =>
    have hc' : '.' ≠ c' := fun h ↦ hpoint (by rw [hdigits, h]; simp)
    simp [List.cons_prefix_cons, hc']

theorem isVersion_iff {w : Token} : Grammar.IsVersion w ↔
    ∃ version, w.version? = some version ∧ isSupported version = true := by
  cases w with
  | float x =>
    simp [Grammar.IsVersion, Token.number?, Token.version?, Token.render, isSupported_iff]
  | int n => simp [Grammar.IsVersion, Token.number?, Token.version?, Token.render, isSupported_repr]
  | mark m => simp [Grammar.IsVersion, Token.number?, Token.version?]
  | string s => simp [Grammar.IsVersion, Token.number?, Token.version?]
  | identifier name => simp [Grammar.IsVersion, Token.number?, Token.version?]

section Header

variable {ts ts₁ rest : Tokens}

theorem header_of_begins (h : Begins ts [.mark .version] ts₁) : header ts = .ok rest ↔
    ∃ number, Grammar.IsVersion number ∧ Begins ts₁ [number, .mark .semicolon] rest := by
  obtain ⟨line, rfl⟩ := begins_singleton.mp h
  unfold header
  dsimp only
  rw [if_pos (isMark_iff.mpr rfl)]
  cases ts₁ with
  | nil => simp [begins_pair, begins_singleton]
  | cons t ts₂ =>
    have hsemicolon : (expectMark .semicolon ts₂).map (·.val.2) = .ok rest ↔
        Begins ts₂ [.mark .semicolon] rest := by
      rw [← reads_expectMark (u := ())]
      constructor
      · intro h
        obtain ⟨⟨⟨_, rest'⟩, hlt⟩, hread, rfl⟩ := Run.map_eq_ok.mp h
        exact ⟨hlt, hread⟩
      · rintro ⟨hlt, hread⟩
        exact Run.map_eq_ok.mpr ⟨_, hread, rfl⟩
    have hnumber : (∃ number, Grammar.IsVersion number ∧
        Begins (t :: ts₂) [number, .mark .semicolon] rest) ↔
          Grammar.IsVersion t.token ∧ Begins ts₂ [.mark .semicolon] rest := by
      constructor
      · rintro ⟨number, hversion, hrest⟩
        obtain ⟨_, hfirst, hrest⟩ := begins_cons.mp hrest
        obtain ⟨line', heq⟩ := begins_singleton.mp hfirst
        cases heq
        exact ⟨hversion, hrest⟩
      · rintro ⟨hversion, hrest⟩
        exact ⟨_, hversion, begins_cons.mpr ⟨ts₂, begins_singleton.mpr ⟨t.line, rfl⟩, hrest⟩⟩
    rw [hnumber, isVersion_iff]
    dsimp only
    split
    · next hnone => simp [hnone]
    · next version hversion =>
      split
      · next hsupported => simp [hversion, hsupported, hsemicolon]
      · next hsupported => simp [hversion, hsupported]

theorem header_of_not_startsWith (h : ¬ StartsWith ts .version) :
    header ts = .ok rest ↔ ts = rest := by
  cases ts with
  | nil => simp [header]
  | cons t ts =>
    unfold header
    dsimp only
    rw [if_neg fun hm ↦ h (startsWith_cons.mpr hm), Except.ok.injEq]

end Header

/-! ### Programs -/

section Programs

variable {ts : Tokens} {p : Program}

theorem text_of_parseTokens (h : parseTokens ts = .ok p) :
    Grammar.Text (ts.map Located.token) p := by
  obtain ⟨rest, hheader, hstatements⟩ := Run.bind_eq_ok.mp h
  by_cases hversion : StartsWith ts .version
  · obtain ⟨ts₁, hversion⟩ := hversion
    obtain ⟨number, hnumber, hrest⟩ := (header_of_begins hversion).mp hheader
    obtain ⟨used, rfl, hused⟩ := begins_cons.mpr ⟨ts₁, hversion, hrest⟩
    rw [List.map_append, hused]
    exact .mk (.version hnumber) (statements_of_eq_ok hstatements)
  · obtain rfl := (header_of_not_startsWith hversion).mp hheader
    exact .mk .absent (statements_of_eq_ok hstatements)

/-- Statements do not begin with a version. -/
theorem not_startsWith_version (h : statements [] [] ts = .ok p) : ¬ StartsWith ts .version := by
  rintro ⟨ts₁, hversion⟩
  have hts : ts ≠ [] := List.ne_nil_of_length_pos (Nat.zero_lt_of_lt hversion.length_lt)
  obtain ⟨first, rest, hfirst, -⟩ := (statements_eq_ok hts).mp h
  obtain ⟨w, _, kind, hw, hkind⟩ := exists_statement?_of_reads hfirst
  obtain ⟨rfl, -⟩ := hversion.unique hw
  cases hkind

theorem parseTokens_of_text (h : Grammar.Text (ts.map Located.token) p) :
    parseTokens ts = .ok p := by
  generalize hwords : ts.map Located.token = words at h
  obtain ⟨hheader, hbody⟩ := h
  cases hheader with
  | absent =>
    rw [List.nil_append] at hwords
    subst hwords
    have hstatements := statements_of_grammar hbody List.nodup_nil
    exact Run.bind_eq_ok.mpr ⟨ts,
      (header_of_not_startsWith (not_startsWith_version hstatements)).mpr rfl, hstatements⟩
  | @version number hnumber =>
    obtain ⟨used, rest, rfl, hused, rfl⟩ := List.map_eq_append_iff.mp hwords
    obtain ⟨ts₁, hversion, hnumber'⟩ := begins_cons.mp ⟨used, rfl, hused⟩
    exact Run.bind_eq_ok.mpr ⟨rest, (header_of_begins hversion).mpr ⟨number, hnumber, hnumber'⟩,
      statements_of_grammar hbody List.nodup_nil⟩

/-- The parser accepts exactly the words of the grammar, and gives the program they stand for. -/
theorem parseTokens_eq_ok_iff (ts : Tokens) (p : Program) :
    parseTokens ts = .ok p ↔ Grammar.Text (ts.map Located.token) p :=
  ⟨text_of_parseTokens, parseTokens_of_text⟩

/-- The program of

    OPENQASM 3.0; qubit[2] r; qubit a; qif a do negctrl @ p(1 - 2 * -0.5 / pi) r[0], r[1]; end

with its angle, its declarations and its guards in full. -/
theorem parseTokens_eq_ok_iff_signed :
    parseTokens
      [⟨1, .mark .version⟩, ⟨1, .float 3.0⟩, ⟨1, .mark .semicolon⟩,
        ⟨1, .mark .qubit⟩, ⟨1, .mark .leftBracket⟩, ⟨1, .int 2⟩, ⟨1, .mark .rightBracket⟩,
        ⟨1, .identifier "r"⟩, ⟨1, .mark .semicolon⟩,
        ⟨1, .mark .qubit⟩, ⟨1, .identifier "a"⟩, ⟨1, .mark .semicolon⟩,
        ⟨2, .mark .qif⟩, ⟨2, .identifier "a"⟩, ⟨2, .mark .begin⟩,
        ⟨3, .mark .negctrl⟩, ⟨3, .mark .atSign⟩, ⟨3, .identifier "p"⟩, ⟨3, .mark .leftParen⟩,
        ⟨3, .int 1⟩, ⟨3, .mark .minus⟩, ⟨3, .int 2⟩, ⟨3, .mark .star⟩, ⟨3, .mark .minus⟩,
        ⟨3, .float 0.5⟩, ⟨3, .mark .slash⟩, ⟨3, .mark .pi⟩, ⟨3, .mark .rightParen⟩,
        ⟨3, .identifier "r"⟩, ⟨3, .mark .leftBracket⟩, ⟨3, .int 0⟩, ⟨3, .mark .rightBracket⟩,
        ⟨3, .mark .comma⟩,
        ⟨3, .identifier "r"⟩, ⟨3, .mark .leftBracket⟩, ⟨3, .int 1⟩, ⟨3, .mark .rightBracket⟩,
        ⟨3, .mark .semicolon⟩, ⟨4, .mark .close⟩] =
      .ok [.declare ⟨"r", some 2⟩, .declare ⟨"a", none⟩,
        .apply ⟨.standard (.p (.sub (.constant 1)
            (.div (.mul (.constant 2) (.constant (-0.5))) .pi))),
          [⟨"r", some 1⟩], [⟨⟨"a", none⟩, false⟩, ⟨⟨"r", some 0⟩, true⟩]⟩] := by
  have hnumber : Grammar.Expression 3 [.mark .minus, .float 0.5] (.constant (-0.5)) :=
    .minusNumber (.lower (.operand (.number rfl)))
  have hproduct := Grammar.Expression.div
    (.mul (.lower (.lower (.operand (.number (t := .int 2) rfl)))) hnumber)
    (.lower (.operand .pi))
  have hangle := Grammar.Expression.lower
    (.sub (.lower (.lower (.lower (.operand (.number (t := .int 1) rfl))))) hproduct)
  let scope : List Declaration := [⟨"r", some 2⟩, ⟨"a", none⟩]
  have href (i : Nat) (hi : i < 2) : Grammar.Reference scope _ ⟨"r", some i⟩ :=
    .slot (List.mem_cons_self ..) rfl hi
  have hoperands : Grammar.Separated (Grammar.Reference scope) _
      (List.map Guard.qubit [⟨⟨"r", some 0⟩, true⟩] ++ [⟨"r", some 1⟩]) :=
    .more (href 0 (by decide)) (.one (href 1 (by decide)))
  have hcall : Grammar.Call scope [⟨⟨"a", none⟩, false⟩] _ _ :=
    .mk (.single true .nil) (.listed (.one hangle)) hoperands rfl (by decide)
      (List.cons_ne_nil _ _) (.standard (g := .p _) (List.mem_cons_self ..))
  have hblock : Grammar.Statements scope [] _ _ :=
    .block (.single (List.mem_cons_of_mem _ (List.mem_cons_self ..)) rfl) (.call hcall .nil) .nil
  exact (parseTokens_eq_ok_iff _ _).mpr (.mk (.version ⟨rfl, .inl (by decide +kernel)⟩)
    (.declaration (.register (List.forall_mem_nil _) (by decide) (by decide))
      (.declaration (.single (by decide)) hblock)))

end Programs

end Source

end Peephole
