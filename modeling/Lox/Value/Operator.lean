import Lox.RuntimeError
import Lox.Value
/-!
The operators on values. The kind of a token chooses the operator; its lexeme only appears in
errors.
-/
namespace Lox.Value
variable {ρ ε : Type}

def unary (kind : Kind) (lexeme : String) (right : Value ρ ε) : Except Cause (Value ρ ε) :=
  match kind, right with
  | .bang, v => .ok (bool !v.isTruthy)
  | .minus, number x => .ok (number (-x))
  | .minus, _ => .error .negatedNonNumber
  | _, _ => .error (.unknownUnary lexeme)

/-- What an operator on two numbers computes. Division by zero gives infinity, or no number. -/
def arithmetic : Kind → Option (Float → Float → Value ρ ε)
  | .minus => some fun x y => number (x - y)
  | .star => some fun x y => number (x * y)
  | .slash => some fun x y => number (x / y)
  | .greater => some fun x y => bool (decide (y < x))
  | .greaterEqual => some fun x y => bool (decide (y ≤ x))
  | .less => some fun x y => bool (decide (x < y))
  | .lessEqual => some fun x y => bool (decide (x ≤ y))
  | _ => none

def add : Value ρ ε → Value ρ ε → Except Cause (Value ρ ε)
  | number x, number y => .ok (number (x + y))
  | string a, string b => .ok (string (a ++ b))
  | _, _ => .error .addedOthers

def binary (kind : Kind) (lexeme : String) (left right : Value ρ ε) : Except Cause (Value ρ ε) :=
  match kind with
  | .equalEqual => .ok (bool (equal left right))
  | .notEqual => .ok (bool !equal left right)
  | .plus => add left right
  | _ =>
    match arithmetic kind, left, right with
    | some f, number x, number y => .ok (f x y)
    | some _, _, _ => .error (.nonNumbers lexeme)
    | none, _, _ => .error (.unknownBinary lexeme)

/-- Whether the left operand decides a logical operator. Every kind but `or` acts as `and`. -/
def decides (kind : Kind) (left : Value ρ ε) : Bool :=
  if kind = .keyword .or_ then left.isTruthy else !left.isTruthy

/-- A value that refers to nothing on a machine. -/
def IsPrimitive : Value ρ ε → Prop
  | nil | bool _ | number _ | string _ => True
  | _ => False

theorem isPrimitive_ofLiteral (literal : Literal) :
    (ofLiteral literal : Value ρ ε).IsPrimitive := by
  cases literal <;> trivial

theorem isPrimitive_of_unary {kind : Kind} {lexeme : String} {v w : Value ρ ε}
    (h : unary kind lexeme v = .ok w) : w.IsPrimitive := by
  unfold unary at h
  split at h <;> cases h <;> trivial

theorem isPrimitive_of_arithmetic {kind : Kind} {f : Float → Float → Value ρ ε}
    (h : arithmetic kind = some f) (x y : Float) : (f x y).IsPrimitive := by
  unfold arithmetic at h
  split at h <;> cases h <;> trivial

theorem isPrimitive_of_binary {kind : Kind} {lexeme : String} {u v w : Value ρ ε}
    (h : binary kind lexeme u v = .ok w) : w.IsPrimitive := by
  unfold binary at h
  split at h
  · cases h
    trivial
  · cases h
    trivial
  · unfold add at h
    split at h <;> cases h <;> trivial
  · split at h
    · next hf =>
      cases h
      exact isPrimitive_of_arithmetic hf _ _
    · cases h
    · cases h

end Lox.Value
