import Novella.Variable.Reference
import Novella.Variable.Value

/-!
# Conditions

A condition is an expression at the front of a text; what follows it is left to the caller.

```
or      := and ("||" and)*
and     := compare ("&&" compare)*
compare := operand (("==" | "=" | "!=" | "<>" | "<" | "<=" | ">" | ">=") operand)?
operand := integer | "text" | %variable | $variable | "(" or ")"
```

The expression ends before the first token that cannot continue it. That token is still looked at,
so a malformed number, variable or text right behind the expression is an error.

## Main definitions

* `Expr` — expressions, with `Expr.eval`
* `Condition.peek` — the next token of a text
* `Condition.read` — the expression at the front of a text, and the rest
* `ConditionError` — why a condition has no value
-/

namespace Novella

/-- An operator that compares two values. -/
inductive Comparison where
  /-- Equality. -/
  | eq
  /-- Inequality. -/
  | ne
  /-- Less than. -/
  | lt
  /-- At most. -/
  | le
  /-- Greater than. -/
  | gt
  /-- At least. -/
  | ge
deriving DecidableEq, Repr

/-- An expression over script variables. -/
inductive Expr where
  /-- A value written out. -/
  | literal (x : Value)
  /-- The value of a variable. -/
  | var (v : Variable)
  /-- A comparison of two values. -/
  | compare (op : Comparison) (l r : Expr)
  /-- Whether both sides are true. -/
  | and (l r : Expr)
  /-- Whether one side is true. -/
  | or (l r : Expr)
deriving DecidableEq, Repr

/-- Why a text is no condition, or a condition has no value. -/
inductive ConditionError where
  /-- An operand was expected where this text stands. -/
  | expectedOperand (rest : String)
  /-- A quoted text has no closing quote. -/
  | unterminatedString
  /-- A parenthesis is not closed. -/
  | unclosedParen
  /-- The number does not fit 64 bits. -/
  | invalidNumber (text : String)
  /-- The sigil is not followed by a name. -/
  | invalidVariable (text : String)
  /-- Only numbers can be ordered. -/
  | notComparable (l r : String)
deriving DecidableEq, Repr

/-- The text of the error for the script's author. -/
def ConditionError.message : ConditionError → String
  | expectedOperand rest => s!"Expected an operand at '{rest}'"
  | unterminatedString => "Unterminated string literal"
  | unclosedParen => "Missing closing parenthesis"
  | invalidNumber text => s!"Invalid number '{text}'"
  | invalidVariable text => s!"Invalid variable '{text}'"
  | notComparable l r => s!"Cannot order non-numeric values '{l}' and '{r}'"

/-! ### Values of expressions -/

/-- The order of two numbers as the operator asks for it. -/
def Comparison.onInts (op : Comparison) (a b : Int) : Bool :=
  match op with
  | eq => a = b
  | ne => a ≠ b
  | lt => a < b
  | le => a ≤ b
  | gt => a > b
  | ge => a ≥ b

/-- Compares two values: as numbers if both are, and otherwise their texts, which have no order. -/
def Comparison.holds (op : Comparison) (a b : Value) : Except ConditionError Bool :=
  match a.int?, b.int? with
  | some m, some n => .ok (op.onInts m.toInt n.toInt)
  | _, _ =>
    match op with
    | eq => .ok (a.text = b.text)
    | ne => .ok (a.text ≠ b.text)
    | _ => .error (.notComparable a.text b.text)

namespace Expr

/-- The value of an expression. The right side of `&&` and `||` is evaluated only if the left side
leaves the answer open. -/
def eval (lookup : Variable → Value) : Expr → Except ConditionError Value
  | literal x => .ok x
  | var v => .ok (lookup v)
  | compare op l r => do
    let a ← l.eval lookup
    let b ← r.eval lookup
    return .ofBool (← op.holds a b)
  | and l r => do
    let a ← l.eval lookup
    if a.isTruthy then return .ofBool (← r.eval lookup).isTruthy
    else return .ofBool false
  | or l r => do
    let a ← l.eval lookup
    if a.isTruthy then return .ofBool true
    else return .ofBool (← r.eval lookup).isTruthy

/-- Whether the expression holds. -/
def isTrue (lookup : Variable → Value) (e : Expr) : Except ConditionError Bool :=
  (e.eval lookup).map Value.isTruthy

end Expr

namespace Condition

/-! ### Tokens -/

/-- A token of a condition. -/
inductive Token where
  /-- An integer. -/
  | int (n : Int64)
  /-- A quoted text. -/
  | str (s : String)
  /-- A variable. -/
  | var (v : Variable)
  /-- A comparison operator. -/
  | compare (op : Comparison)
  /-- The operator `&&`. -/
  | and
  /-- The operator `||`. -/
  | or
  /-- An opening parenthesis. -/
  | opening
  /-- A closing parenthesis. -/
  | closing
  /-- Something that is no part of a condition. -/
  | other
deriving DecidableEq, Repr

/-- The operator or parenthesis at the front, and what follows it. Longer operators go first. -/
def symbol? : List Char → Option (Token × List Char)
  | '=' :: '=' :: cs => some (.compare .eq, cs)
  | '!' :: '=' :: cs => some (.compare .ne, cs)
  | '<' :: '>' :: cs => some (.compare .ne, cs)
  | '<' :: '=' :: cs => some (.compare .le, cs)
  | '>' :: '=' :: cs => some (.compare .ge, cs)
  | '&' :: '&' :: cs => some (.and, cs)
  | '|' :: '|' :: cs => some (.or, cs)
  | '=' :: cs => some (.compare .eq, cs)
  | '<' :: cs => some (.compare .lt, cs)
  | '>' :: cs => some (.compare .gt, cs)
  | '(' :: cs => some (.opening, cs)
  | ')' :: cs => some (.closing, cs)
  | _ => none

/-- The quoted text that goes on with these characters, and what follows its closing quote. -/
def quoted (cs : List Char) : Except ConditionError (Token × List Char) :=
  match cs.dropWhile (· ≠ '"') with
  | _ :: rest => .ok (.str (String.ofList (cs.takeWhile (· ≠ '"'))), rest)
  | [] => .error .unterminatedString

/-- The variable whose reference begins with `sigil` and goes on with these characters. -/
def reference (sigil : Char) (cs : List Char) : Except ConditionError (Token × List Char) :=
  let token := sigil :: cs.takeWhile Text.isWordChar
  match Variable.ofChars? token with
  | some v => .ok (.var v, cs.dropWhile Text.isWordChar)
  | none => .error (.invalidVariable (String.ofList token))

/-- The number with the given sign whose digits stand at the front of these characters. -/
def number (sign cs : List Char) : Except ConditionError (Token × List Char) :=
  let token := sign ++ cs.takeWhile Char.isDigit
  match Numeral.int64? token with
  | some n => .ok (.int n, cs.dropWhile Char.isDigit)
  | none => .error (.invalidNumber (String.ofList token))

/-- The token at the front of a text that does not begin with a blank, and what follows it. -/
def token (cs : List Char) : Except ConditionError (Option (Token × List Char)) :=
  match symbol? cs with
  | some t => .ok (some t)
  | none =>
    match cs with
    | [] => .ok none
    | '"' :: rest => some <$> quoted rest
    | '%' :: rest => some <$> reference '%' rest
    | '$' :: rest => some <$> reference '$' rest
    | '-' :: c :: rest =>
      if c.isDigit then some <$> number ['-'] (c :: rest) else .ok (some (.other, cs))
    | c :: _ => if c.isDigit then some <$> number [] cs else .ok (some (.other, cs))

/-- The next token, blanks before it apart, and what follows it. -/
def peek (cs : List Char) : Except ConditionError (Option (Token × List Char)) :=
  token (Text.trimStart cs)

/-! ### Expressions -/

/-- What a parser reads next. -/
inductive Goal where
  /-- Operands joined by `||`. -/
  | disjunction
  /-- Further operands of `||`, after `l`. -/
  | disjuncts (l : Expr)
  /-- Operands joined by `&&`. -/
  | conjunction
  /-- Further operands of `&&`, after `l`. -/
  | conjuncts (l : Expr)
  /-- One or two operands with a comparison between them. -/
  | comparison
  /-- A literal, a variable or an expression in parentheses. -/
  | operand

/-- The error of an operand that is missing at the front of this text. -/
def expected (cs : List Char) : ConditionError :=
  .expectedOperand (String.ofList (Text.trim cs))

/-- Reads one part of an expression and gives it with the text behind it. The first argument bounds
the depth of the recursion. -/
def parse : Nat → Goal → List Char → Except ConditionError (Expr × List Char)
  | 0, _, cs => .error (expected cs)
  | n + 1, .disjunction, cs => do
    let (l, rest) ← parse n .conjunction cs
    parse n (.disjuncts l) rest
  | n + 1, .disjuncts l, cs => do
    match ← peek cs with
    | some (.or, rest) =>
      let (r, rest) ← parse n .conjunction rest
      parse n (.disjuncts (.or l r)) rest
    | _ => return (l, cs)
  | n + 1, .conjunction, cs => do
    let (l, rest) ← parse n .comparison cs
    parse n (.conjuncts l) rest
  | n + 1, .conjuncts l, cs => do
    match ← peek cs with
    | some (.and, rest) =>
      let (r, rest) ← parse n .comparison rest
      parse n (.conjuncts (.and l r)) rest
    | _ => return (l, cs)
  | n + 1, .comparison, cs => do
    let (l, rest) ← parse n .operand cs
    match ← peek rest with
    | some (.compare op, rest) =>
      let (r, rest) ← parse n .operand rest
      return (.compare op l r, rest)
    | _ => return (l, rest)
  | n + 1, .operand, cs => do
    match ← peek cs with
    | some (.int m, rest) => return (.literal (.int m), rest)
    | some (.str s, rest) => return (.literal (.str s), rest)
    | some (.var v, rest) => return (.var v, rest)
    | some (.opening, rest) =>
      let (e, rest) ← parse n .disjunction rest
      match ← peek rest with
      | some (.closing, rest) => return (e, rest)
      | _ => throw .unclosedParen
    | _ => throw (expected cs)

/-- A depth that no text of this length exceeds: each level of the grammar adds at most one, and
the goals repeat only after a token has been consumed. -/
def depth (cs : List Char) : Nat := 4 * cs.length + 4

/-- The expression at the front of a text, and what follows it from its first character that is not
blank. -/
def read (cs : List Char) : Except ConditionError (Expr × List Char) := do
  let (e, rest) ← parse (depth cs) .disjunction cs
  return (e, Text.trimStart rest)

end Condition

end Novella
