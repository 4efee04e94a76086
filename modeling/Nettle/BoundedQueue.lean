-- A bounded queue: what comes in first comes out first.
import Mathlib.Data.List.Basic

namespace bounded_queue

variable {V : Type*}

inductive Op (V : Type*) where
  | push (value : V)
  | pop
  deriving DecidableEq

inductive Answer (V : Type*) where
  | pushed (accepted : Bool)
  | popped (value : Option V)
  deriving DecidableEq

/-- What the queue answers, with its values in the order in which they came. -/
inductive Step (capacity : Nat) : List V → Op V → Answer V → List V → Prop where
  | accept {values value} : values.length < capacity →
      Step capacity values (.push value) (.pushed true) (values ++ [value])
  | refuse {values value} : values.length = capacity →
      Step capacity values (.push value) (.pushed false) values
  | pop {values value} : Step capacity (value :: values) .pop (.popped (some value)) values
  | pop_empty : Step capacity [] .pop (.popped none) []

inductive Run (capacity : Nat) : List V → List (Op V) → List (Answer V) → List V → Prop where
  | nil {values} : Run capacity values [] [] values
  | cons {values values' values'' op answer ops answers} : Step capacity values op answer values' →
      Run capacity values' ops answers values'' →
      Run capacity values (op :: ops) (answer :: answers) values''

/-- The values that were accepted, in their order. -/
def pushed : List (Op V) → List (Answer V) → List V
  | .push value :: ops, .pushed true :: answers => value :: pushed ops answers
  | _ :: ops, _ :: answers => pushed ops answers
  | _, _ => []

/-- The values that were handed out, in their order. -/
def popped : List (Answer V) → List V
  | .popped (some value) :: answers => value :: popped answers
  | _ :: answers => popped answers
  | [] => []

section

variable {capacity : Nat} {values values' : List V} {ops : List (Op V)}
  {answers : List (Answer V)}

/-- What was there and what was accepted behind it is what was handed out and what is there. -/
theorem Run.balance (hrun : Run capacity values ops answers values') :
    values ++ pushed ops answers = popped answers ++ values' := by
  induction hrun with
  | nil => exact List.append_nil _
  | cons hstep hrun ih =>
    cases hstep <;> simp only [pushed, popped]
    case accept =>
      rw [← ih, List.append_assoc, List.singleton_append]
    case pop =>
      rw [List.cons_append, List.cons_append, ih]
    all_goals exact ih

end

end bounded_queue
