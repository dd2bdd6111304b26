/-
Reading output paths. Operators bind by power: an expression goes on as long as the next token
binds tighter than the one that asked for it. `fuel` bounds the depth of the calls, which is a
small multiple of the number of tokens.
-/
import Parley.OutputPath.Syntax
import Parley.OutputPath.Token

namespace Parley.OutputPath.Parser

/-- What is read from the front of some tokens, and the tokens behind it. -/
abbrev Step (α : Type) := Option (α × List Token)

/-! ## Powers -/

/-- How tightly a token binds to the expression before it. -/
def power : Token → Nat
  | .pipe => 1
  | .or => 2
  | .and => 3
  | .compare _ => 5
  | .flatten => 9
  | .star => 20
  | .filter => 21
  | .dot => 40
  | .not => 45
  | .openBrace => 50
  | .openBracket => 55
  | .openParen => 60
  | _ => 0

/-- A token that binds less than this ends a projection. -/
def projectionStop : Nat := 10

/-- The power of the token in front; the end of the text binds nothing. -/
def nextPower : List Token → Nat
  | [] => 0
  | t :: _ => power t

/-! ## Brackets -/

/-- The parts of an index or a slice, up to its closing bracket: the current part and those before
it. -/
def sliceParts : (done : List (Option Int)) → (part : Option Int) → List Token →
    Step (List (Option Int))
  | done, _, .number n :: r =>
    match r with
    | .colon :: _ | .closeBracket :: _ => sliceParts done (some n) r
    | _ => none
  | done, part, .closeBracket :: r => some (done ++ [part], r)
  | done, part, .colon :: r =>
    if 2 ≤ done.length then none
    else
      match r with
      | .number _ :: _ | .colon :: _ | .closeBracket :: _ => sliceParts (done ++ [part]) none r
      | _ => none
  | _, _, _ => none

/-- The comparator that a token writes. -/
def comparator? : String → Option Comparator
  | "==" => some .eq
  | "!=" => some .ne
  | "<" => some .lt
  | "<=" => some .le
  | ">" => some .gt
  | ">=" => some .ge
  | _ => none

/-! ## Expressions -/

mutual

/-- An expression in which every operator binds tighter than `bound`. -/
def expr : (fuel : Nat) → (bound : Nat) → List Token → Step Expr
  | 0, _, _ => none
  | fuel + 1, bound, ts =>
    match leading fuel ts with
    | none => none
    | some (left, r) => trailing fuel bound left r

/-- The expression goes on behind its left part while the next token binds tighter. -/
def trailing : (fuel : Nat) → (bound : Nat) → Expr → List Token → Step Expr
  | 0, _, _, _ => none
  | fuel + 1, bound, left, ts =>
    if bound < nextPower ts then
      match following fuel left ts with
      | none => none
      | some (left, r) => trailing fuel bound left r
    else some (left, ts)

/-- The expression that starts with the token in front. -/
def leading : (fuel : Nat) → List Token → Step Expr
  | 0, _ => none
  | fuel + 1, ts =>
    match ts with
    | .at :: r => some (.current, r)
    | .name n :: r => some (.field n, r)
    | .quotedName n :: r =>
      match r with
      | .openParen :: _ => none
      | _ => some (.field n, r)
    | .star :: r => memberValues fuel .current r
    | .literal v :: r => some (.literal v, r)
    | .openBracket :: r =>
      match r with
      | .number _ :: _ | .colon :: _ => bracketed fuel r
      | .star :: .closeBracket :: r => projection fuel 20 .current r
      | _ => (list fuel .closeBracket r).map fun (es, r) => (.list es, r)
    | .flatten :: r => projection fuel 9 (.flatten .current) r
    | .openBrace :: r => (members fuel r).map fun (ms, r) => (.object ms, r)
    | .ampersand :: r => (expr fuel 0 r).map fun (e, s) => (.reference r.length e, s)
    | .not :: r => (expr fuel 45 r).map fun (e, r) => (.not e, r)
    | .filter :: r => filter fuel .current r
    | .openParen :: r =>
      match expr fuel 0 r with
      | some (e, .closeParen :: r) => some (e, r)
      | _ => none
    | _ => none

/-- The expression that the token in front makes of the one before it. -/
def following : (fuel : Nat) → Expr → List Token → Step Expr
  | 0, _, _ => none
  | fuel + 1, left, ts =>
    match ts with
    | .dot :: .star :: r => memberValues fuel left r
    | .dot :: r => (afterDot fuel 40 r).map fun (e, r) => (.chain left e, r)
    | .openBracket :: r =>
      match r with
      | .number _ :: _ | .colon :: _ => (bracketed fuel r).map fun (e, r) => (.chain left e, r)
      | .star :: .closeBracket :: r => projection fuel 20 left r
      | _ => none
    | .or :: r => (expr fuel 2 r).map fun (e, r) => (.or left e, r)
    | .and :: r => (expr fuel 3 r).map fun (e, r) => (.and left e, r)
    | .pipe :: r => (expr fuel 1 r).map fun (e, r) => (.chain left e, r)
    | .openParen :: r =>
      match left with
      | .field n => (list fuel .closeParen r).map fun (es, r) => (.apply n es, r)
      | _ => none
    | .flatten :: r => projection fuel 9 (.flatten left) r
    | .filter :: r => filter fuel left r
    | .compare op :: r =>
      match comparator? op with
      | none => none
      | some op => (expr fuel 5 r).map fun (e, r) => (.compare op left e, r)
    | _ => none

/-- An index or a slice behind its opening bracket. -/
def bracketed : (fuel : Nat) → List Token → Step Expr
  | 0, _ => none
  | fuel + 1, ts =>
    match sliceParts [] none ts with
    | some ([some i], r) => some (.index i, r)
    | some ([start, stop], r) => projection fuel 20 (.slice start stop 1) r
    | some ([start, stop, step], r) => projection fuel 20 (.slice start stop (step.getD 1)) r
    | _ => none

/-- The projection of a list through what follows. -/
def projection : (fuel : Nat) → (bound : Nat) → Expr → List Token → Step Expr
  | 0, _, _, _ => none
  | fuel + 1, bound, source, ts =>
    (projected fuel bound ts).map fun (e, r) => (.project source e, r)

/-- The projection of the member values of an object through what follows. -/
def memberValues : (fuel : Nat) → Expr → List Token → Step Expr
  | 0, _, _ => none
  | fuel + 1, e, ts => projection fuel 20 (.memberValues e) ts

/-- The projection through a condition, behind its opening bracket. -/
def filter : (fuel : Nat) → Expr → List Token → Step Expr
  | 0, _, _ => none
  | fuel + 1, source, ts =>
    match expr fuel 0 ts with
    | some (condition, .closeBracket :: r) =>
      (projected fuel 21 r).map fun (e, r) => (.project source (.guarded condition e), r)
    | _ => none

/-- What a projection does with each item. -/
def projected : (fuel : Nat) → (bound : Nat) → List Token → Step Expr
  | 0, _, _ => none
  | fuel + 1, bound, ts =>
    match ts with
    | .dot :: r => afterDot fuel bound r
    | .openBracket :: _ | .filter :: _ => expr fuel bound ts
    | _ => if nextPower ts < projectionStop then some (.current, ts) else none

/-- What may stand behind a dot. -/
def afterDot : (fuel : Nat) → (bound : Nat) → List Token → Step Expr
  | 0, _, _ => none
  | fuel + 1, bound, ts =>
    match ts with
    | .openBracket :: r => (list fuel .closeBracket r).map fun (es, r) => (.list es, r)
    | .name _ :: _ | .quotedName _ :: _ | .star :: _ | .openBrace :: _ | .ampersand :: _ =>
      expr fuel bound ts
    | _ => none

/-- Expressions up to a closing token; a comma between two of them may be missing, but none may
stand before the end. -/
def list : (fuel : Nat) → (close : Token) → List Token → Step (List Expr)
  | 0, _, _ => none
  | _ + 1, _, [] => none
  | fuel + 1, close, t :: ts =>
    if t = close then some ([], ts)
    else
      match expr fuel 0 (t :: ts) with
      | none => none
      | some (e, r) =>
        match r with
        | .comma :: r =>
          if r.head? = some close then none
          else (list fuel close r).map fun (es, r) => (e :: es, r)
        | r => (list fuel close r).map fun (es, r) => (e :: es, r)

/-- Named expressions up to the closing brace, one at least. -/
def members : (fuel : Nat) → List Token → Step (List (String × Expr))
  | 0, _ => none
  | fuel + 1, ts =>
    let value (k : String) (r : List Token) : Step (List (String × Expr)) :=
      match expr fuel 0 r with
      | some (e, .closeBrace :: r) => some ([(k, e)], r)
      | some (e, .comma :: r) => (members fuel r).map fun (ms, r) => ((k, e) :: ms, r)
      | _ => none
    match ts with
    | .name k :: .colon :: r | .quotedName k :: .colon :: r => value k r
    | _ => none

end

/-- The expression that all tokens together write. -/
def parse? (ts : List Token) : Option Expr :=
  match expr (8 * ts.length + 8) 0 ts with
  | some (e, []) => some e
  | _ => none

end Parley.OutputPath.Parser
