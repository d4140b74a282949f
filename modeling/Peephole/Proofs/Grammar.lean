import Peephole.Source.Statement

/-!
# The grammar of program text

The words of a text are its tokens without their lines. `Grammar.Text` says which words are a
program and which program they are. It is built from relations for the parts of a program: angles,
references to qubits, parameters, modifiers, calls and declarations. They say what may stand where
and nothing about how it is read.

The rules on names and numbers are part of the relations. A reference names a declaration that comes
before it, with an index exactly if that declares a register; a declaration stands outside of blocks
and has a new name; the modifiers of a call leave at least one operand as a target; and a standard
gate has its own number of parameters and of targets. Sizes and numbers of targets are below 2^32,
and a call has fewer than 2^64 guards of its own.

The relations have their own tables of gates, levels and bounds, and build every angle from its
constructors. How they are related to what the parser uses is proved where it is needed.
-/

set_option autoImplicit false
set_option relaxedAutoImplicit false

namespace Peephole

namespace StandardGate

/-- The names of a standard gate; the phase gate has two. -/
def names : StandardGate → List String
  | x => ["x"]
  | y => ["y"]
  | z => ["z"]
  | h => ["h"]
  | s => ["s"]
  | sdg => ["sdg"]
  | t => ["t"]
  | tdg => ["tdg"]
  | p _ => ["p", "phase"]
  | rx _ => ["rx"]
  | ry _ => ["ry"]
  | rz _ => ["rz"]
  | cx => ["cx"]
  | cy => ["cy"]
  | cz => ["cz"]
  | swap => ["swap"]
  | ccx => ["ccx"]

/-- The number of targets of a standard gate. -/
def targetCount : StandardGate → Nat
  | cx | cy | cz | swap => 2
  | ccx => 3
  | x | y | z | h | s | sdg | t | tdg | p _ | rx _ | ry _ | rz _ => 1

end StandardGate

namespace Source

/-- The value of a number. -/
def Token.number? : Token → Option Float
  | int n => some (Float.ofNat n)
  | float x => some x
  | _ => none

/-- The keyword of a modifier. -/
def modifierMark (negated : Bool) : Mark :=
  if negated then .negctrl else .ctrl

namespace Grammar

/-- An angle that is a single word: a number, π or a symbol. -/
inductive Operand : Token → Angle → Prop where
  | number {t : Token} {x : Float} (h : t.number? = some x) : Operand t (.constant x)
  | pi : Operand (.mark .pi) .pi
  | symbol (name : String) : Operand (.identifier name) (.symbol name)

/-- The words of an angle whose operators outside of parentheses bind at least as tightly as
`level`: everything is of level 0, sums of level 1, products of level 2, operands with minus signs
in front of them of level 3 and operands without them of level 4. The left operand of an operator
may have operators of the same level and the right one may not, so they associate to the left. A
minus in front of a number is part of the number. -/
inductive Expression : Nat → List Token → Angle → Prop where
  | operand {t : Token} {e : Angle} (h : Operand t e) : Expression 4 [t] e
  | parens {ws : List Token} {e : Angle} (inner : Expression 0 ws e) :
      Expression 4 (.mark .leftParen :: (ws ++ [.mark .rightParen])) e
  | minusNumber {ws : List Token} {x : Float} (operand : Expression 3 ws (.constant x)) :
      Expression 3 (.mark .minus :: ws) (.constant (-x))
  | minus {ws : List Token} {e : Angle} (operand : Expression 3 ws e)
      (hnumber : ∀ x, e ≠ .constant x) : Expression 3 (.mark .minus :: ws) (.neg e)
  | mul {ls rs : List Token} {a b : Angle} (left : Expression 2 ls a) (right : Expression 3 rs b) :
      Expression 2 (ls ++ .mark .star :: rs) (.mul a b)
  | div {ls rs : List Token} {a b : Angle} (left : Expression 2 ls a) (right : Expression 3 rs b) :
      Expression 2 (ls ++ .mark .slash :: rs) (.div a b)
  | add {ls rs : List Token} {a b : Angle} (left : Expression 1 ls a) (right : Expression 2 rs b) :
      Expression 1 (ls ++ .mark .plus :: rs) (.add a b)
  | sub {ls rs : List Token} {a b : Angle} (left : Expression 1 ls a) (right : Expression 2 rs b) :
      Expression 1 (ls ++ .mark .minus :: rs) (.sub a b)
  | lower {level : Nat} {ws : List Token} {e : Angle} (h : Expression (level + 1) ws e) :
      Expression level ws e

/-- One or more items with commas between them. -/
inductive Separated {α : Type} (item : List Token → α → Prop) : List Token → List α → Prop where
  | one {ws : List Token} {a : α} (h : item ws a) : Separated item ws [a]
  | more {ws vs : List Token} {a : α} {as : List α} (h : item ws a)
      (rest : Separated item vs as) : Separated item (ws ++ .mark .comma :: vs) (a :: as)

/-- The parameters of a gate. -/
inductive Parameters : List Token → List Angle → Prop where
  | absent : Parameters [] []
  | empty : Parameters [.mark .leftParen, .mark .rightParen] []
  | listed {ws : List Token} {es : List Angle} (h : Separated (Expression 0) ws es) :
      Parameters (.mark .leftParen :: (ws ++ [.mark .rightParen])) es

/-- A reference to a declared qubit. -/
inductive Reference (scope : List Declaration) : List Token → Qubit → Prop where
  | single {d : Declaration} (hd : d ∈ scope) (hsize : d.size = none) :
      Reference scope [.identifier d.name] ⟨d.name, none⟩
  | slot {d : Declaration} {size index : Nat} (hd : d ∈ scope) (hsize : d.size = some size)
      (hindex : index < size) :
      Reference scope
        [.identifier d.name, .mark .leftBracket, .int index, .mark .rightBracket]
        ⟨d.name, some index⟩

/-- The modifiers in front of a gate. -/
inductive Modifiers : List Token → List Modifier → Prop where
  | nil : Modifiers [] []
  | single (negated : Bool) {ws : List Token} {ms : List Modifier} (rest : Modifiers ws ms) :
      Modifiers (.mark (modifierMark negated) :: .mark .atSign :: ws) (⟨negated, 1⟩ :: ms)
  | counted (negated : Bool) {count : Nat} (hcount : 0 < count) {ws : List Token}
      {ms : List Modifier} (rest : Modifiers ws ms) :
      Modifiers (.mark (modifierMark negated) :: .mark .leftParen :: .int count ::
        .mark .rightParen :: .mark .atSign :: ws) (⟨negated, count⟩ :: ms)

/-- The gate that a name stands for, given its parameters and its number of targets. -/
inductive Named : String → List Angle → Nat → Gate → Prop where
  | standard {name : String} {g : StandardGate} (hname : name ∈ g.names) :
      Named name g.params g.targetCount (.standard g)
  | custom {name : String} {params : List Angle} {targets : Nat}
      (hname : ∀ g : StandardGate, name ∉ g.names) (htargets : targets < UInt32.size) :
      Named name params targets (.custom name targets params)

/-- The application of a gate within blocks that have the given guards. The first operands are the
qubits of further guards, as many as the modifiers ask for, and the others are the targets. -/
inductive Call (scope : List Declaration) (blockGuards : List Guard) :
    List Token → Application → Prop where
  | mk {ms : List Modifier} {name : String} {params : List Angle} {guards : List Guard}
      {targets : List Qubit} {gate : Gate} {modifierWords paramWords operandWords : List Token}
      (hmodifiers : Modifiers modifierWords ms) (hparams : Parameters paramWords params)
      (hoperands : Separated (Reference scope) operandWords (guards.map Guard.qubit ++ targets))
      (hguards : guards.map Guard.negated =
        ms.flatMap fun m ↦ List.replicate m.count m.negated)
      (hcount : guards.length < UInt64.size) (htargets : targets ≠ [])
      (hgate : Named name params targets.length gate) :
      Call scope blockGuards
        (modifierWords ++ .identifier name :: (paramWords ++ (operandWords ++ [.mark .semicolon])))
        ⟨gate, targets, blockGuards ++ guards⟩

/-- A declaration of a new name. -/
inductive Declares (scope : List Declaration) : List Token → Declaration → Prop where
  | single {name : String} (hfresh : ∀ d ∈ scope, d.name ≠ name) :
      Declares scope [.mark .qubit, .identifier name, .mark .semicolon] ⟨name, none⟩
  | register {name : String} {size : Nat} (hfresh : ∀ d ∈ scope, d.name ≠ name)
      (hpos : 1 ≤ size) (hsize : size < UInt32.size) :
      Declares scope
        [.mark .qubit, .mark .leftBracket, .int size, .mark .rightBracket, .identifier name,
          .mark .semicolon]
        ⟨name, some size⟩

/-- Statements after some declarations and within blocks that have the given guards, with the
instructions they stand for. Each rule is for one kind of statement, followed by further ones. -/
inductive Statements : List Declaration → List Guard → List Token → List Instruction → Prop where
  | nil {scope : List Declaration} {blockGuards : List Guard} :
      Statements scope blockGuards [] []
  | empty {scope : List Declaration} {blockGuards : List Guard} {ws : List Token}
      {is : List Instruction} (rest : Statements scope blockGuards ws is) :
      Statements scope blockGuards (.mark .semicolon :: ws) is
  | inclusion {scope : List Declaration} {blockGuards : List Guard} (file : String)
      {ws : List Token} {is : List Instruction} (rest : Statements scope blockGuards ws is) :
      Statements scope blockGuards
        (.mark .inclusion :: .string file :: .mark .semicolon :: ws) is
  | declaration {scope : List Declaration} {d : Declaration} {vs ws : List Token}
      {is : List Instruction} (hd : Declares scope vs d)
      (rest : Statements (scope ++ [d]) [] ws is) :
      Statements scope [] (vs ++ ws) (.declare d :: is)
  | call {scope : List Declaration} {blockGuards : List Guard} {a : Application}
      {vs ws : List Token} {is : List Instruction} (ha : Call scope blockGuards vs a)
      (rest : Statements scope blockGuards ws is) :
      Statements scope blockGuards (vs ++ ws) (.apply a :: is)
  | block {scope : List Declaration} {blockGuards : List Guard} {q : Qubit}
      {vs body ws : List Token} {js is : List Instruction} (hq : Reference scope vs q)
      (hbody : Statements scope (blockGuards ++ [⟨q, false⟩]) body js)
      (rest : Statements scope blockGuards ws is) :
      Statements scope blockGuards
        (.mark .qif :: (vs ++ .mark .begin :: (body ++ .mark .close :: ws))) (js ++ is)

/-- A version of the language: a number that is written as 3 or begins with 3 and a point. -/
def IsVersion (number : Token) : Prop :=
  number.number?.isSome ∧ (number.render = "3" ∨ ['3', '.'] <+: number.render.toList)

/-- An optional version header. -/
inductive Header : List Token → Prop where
  | absent : Header []
  | version {number : Token} (hnumber : IsVersion number) :
      Header [.mark .version, number, .mark .semicolon]

/-- The words of a program, with the program they stand for. -/
inductive Text : List Token → Program → Prop where
  | mk {vs ws : List Token} {p : Program} (header : Header vs) (body : Statements [] [] ws p) :
      Text (vs ++ ws) p

end Grammar

end Source

end Peephole
