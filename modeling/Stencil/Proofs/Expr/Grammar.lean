import Stencil.Expr.Parser

/-!
# The grammar of expressions

Which words, that is, which kinds of tokens in a row, are expressions, and with which tree. From the
loosest to the tightest there are conditionals, layers of binary operators, of which each groups to
the left, prefix operators, suffixes and atoms. Ranges stand between relations and sums and do not
group at all.

Two rules settle what the layers alone leave open. A minus right before a number is part of the
number, and a range of two numbers with a member or an index behind it is what that is taken of.
-/

namespace Stencil

/-- The layers of binary operators. -/
inductive Layer where
  | disjunction
  | conjunction
  | equality
  | relation
  | sum
  | product
deriving DecidableEq

def BinaryOp.layer : BinaryOp → Layer
  | or => .disjunction
  | and => .conjunction
  | equal | notEqual => .equality
  | order _ => .relation
  | arith .add | arith .sub => .sum
  | arith .mul | arith .div | arith .rem => .product

def Comparison.mark : Comparison → Mark
  | less => .less
  | greater => .greater
  | lessEqual => .lessEqual
  | greaterEqual => .greaterEqual

def BinaryOp.mark : BinaryOp → Mark
  | or => .or
  | and => .and
  | equal => .equal
  | notEqual => .notEqual
  | order c => c.mark
  | arith .add => .plus
  | arith .sub => .minus
  | arith .mul => .star
  | arith .div => .slash
  | arith .rem => .percent

namespace Grammar

abbrev Word := List Token.Kind

inductive Category where
  | expression
  | layer (l : Layer)
  | range
  | prefixed
  | postfixed
  /-- What a suffix stands behind. -/
  | target
  | atom

/-- What stands on either side of an operator; the left side may also be of the layer itself. -/
def operandOf : Layer → Category
  | .disjunction => .layer .conjunction
  | .conjunction => .layer .equality
  | .equality => .layer .relation
  | .relation => .range
  | .sum => .layer .product
  | .product => .prefixed

/-- A number, with a minus that belongs to it. -/
inductive Literal : Word → Expr → Prop
  | integer (n : Int64) : Literal [.integer n] (.integer n)
  | float (x : Float) : Literal [.float x] (.float x)
  | negativeInteger (n : Int64) : Literal [.mark .minus, .integer n] (.integer (-n))
  | negativeFloat (x : Float) : Literal [.mark .minus, .float x] (.float (-x))

def isNumber : Token.Kind → Bool
  | .integer _ | .float _ => true
  | _ => false

def StartsInNumber (w : Word) : Prop :=
  ∃ k ∈ w.head?, isNumber k

def EndsInNumber (w : Word) : Prop :=
  ∃ k ∈ w.getLast?, isNumber k

def startsSuffix : Token.Kind → Bool
  | .mark .dot | .mark .openBracket => true
  | _ => false

def StartsInSuffix (w : Word) : Prop :=
  ∃ k ∈ w.head?, startsSuffix k

/-- A number in front, and a member or an index behind it. -/
def StartsInBound (w : Word) : Prop :=
  ∃ v e rest, Literal v e ∧ w = v ++ rest ∧ StartsInSuffix rest

/-- Words with commas between them, and perhaps one behind the last. -/
inductive Listed (ws : List Word) : Word → Prop
  | plain : Listed ws ([.mark .comma].intercalate ws)
  | trailing (h : ws ≠ []) : Listed ws ([.mark .comma].intercalate ws ++ [.mark .comma])

/-- Names with commas between them. -/
def parameters (names : List String) : Word :=
  [.mark .comma].intercalate (names.map fun s => [.name s])

mutual

/-- The words of each category and their trees. -/
inductive Derives : Category → Word → Expr → Prop
  | choiceless {w e} : Derives (.layer .disjunction) w e → Derives .expression w e
  | conditional {u v w test yes no} : Derives (.layer .disjunction) u test →
      Derives .expression v yes → Derives .expression w no →
      Derives .expression (u ++ .mark .question :: v ++ .mark .colon :: w)
        (.conditional test yes no)
  | operand {l w e} : Derives (operandOf l) w e → Derives (.layer l) w e
  | binary {op v w left right} : Derives (.layer op.layer) v left →
      Derives (operandOf op.layer) w right →
      Derives (.layer op.layer) (v ++ .mark op.mark :: w) (.binary op left right)
  | single {w e} : Derives (.layer .sum) w e → Derives .range w e
  | range {v w first last} : Derives (.layer .sum) v first → Derives (.layer .sum) w last →
      ¬ (EndsInNumber v ∧ StartsInBound w) →
      Derives .range (v ++ .mark .range :: w) (.range first last)
  | not {w e} : Derives .prefixed w e → Derives .prefixed (.mark .not :: w) (.unary .not e)
  | negate {w e} : Derives .prefixed w e → ¬ StartsInNumber w →
      Derives .prefixed (.mark .minus :: w) (.unary .negate e)
  | bare {w e} : Derives .postfixed w e → Derives .prefixed w e
  | atomic {w e} : Derives .atom w e → Derives .postfixed w e
  | target {w e} : Derives .postfixed w e → Derives .target w e
  | literalRange {v w first last} : Literal v first → Literal w last →
      Derives .target (v ++ .mark .range :: w) (.range first last)
  | member {w e name} : Derives .target w e →
      Derives .postfixed (w ++ [.mark .dot, .name name]) (.member e name)
  | method {v w e name} {parts : List (Word × Expr)} : Derives .target v e →
      (∀ p ∈ parts, Derives .expression p.1 p.2) → Listed (parts.map (·.1)) w →
      Derives .postfixed
        (v ++ .mark .dot :: .name name :: .mark .openParen :: w ++ [.mark .closeParen])
        (.call (some e) name (parts.map (·.2)))
  | index {v w e i} : Derives .target v e → Derives .expression w i →
      Derives .postfixed (v ++ .mark .openBracket :: w ++ [.mark .closeBracket]) (.index e i)
  | number {w e} : Literal w e → Derives .atom w e
  | string {s} : Derives .atom [.string s] (.string s)
  | boolean {b} : Derives .atom [.boolean b] (.boolean b)
  | null : Derives .atom [.null] .null
  | name {s} : Derives .atom [.name s] (.name s)
  | call {w name} {parts : List (Word × Expr)} :
      (∀ p ∈ parts, Derives .expression p.1 p.2) → Listed (parts.map (·.1)) w →
      Derives .atom (.name name :: .mark .openParen :: w ++ [.mark .closeParen])
        (.call none name (parts.map (·.2)))
  | lambda {w param body} : Derives .expression w body →
      Derives .atom (.name param :: .mark .arrow :: w) (.lambda [param] body)
  | lambdaOf {w params body} : Derives .expression w body →
      Derives .atom
        (.mark .openParen :: parameters params ++ .mark .closeParen :: .mark .arrow :: w)
        (.lambda params body)
  | group {w e} : Derives .expression w e →
      Derives .atom (.mark .openParen :: w ++ [.mark .closeParen]) e
  | array {w} {parts : List (Word × Expr)} :
      (∀ p ∈ parts, Derives .expression p.1 p.2) → Listed (parts.map (·.1)) w →
      Derives .atom (.mark .openBracket :: w ++ [.mark .closeBracket])
        (.array (parts.map (·.2)))
  | object {w} {parts : List (Word × (String × Expr))} :
      (∀ p ∈ parts, DerivesMember p.1 p.2) → Listed (parts.map (·.1)) w →
      Derives .atom (.mark .openBrace :: w ++ [.mark .closeBrace])
        (.object (parts.map (·.2)))

/-- A member of an object, whose name may be quoted. -/
inductive DerivesMember : Word → String × Expr → Prop
  | quoted {w name e} : Derives .expression w e →
      DerivesMember (.string name :: .mark .colon :: w) (name, e)
  | plain {w name e} : Derives .expression w e →
      DerivesMember (.name name :: .mark .colon :: w) (name, e)

end

end Grammar

end Stencil
