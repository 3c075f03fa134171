/-!
# The primitives

The operations that the calculator itself implements. A declaration refers to one by its label.

* `Primitive`, `Primitive.label`, `Primitive.ofLabel?`.
* `Primitive.ofLabel?_label`: labels tell primitives apart.
-/

namespace TermCalc

/-- **An operation of the calculator.** -/
inductive Primitive where
  | add | subtract | multiply | divide | negate | power | abs | factorial | minus
  | lessThan | greaterThan | lessOrEqual | greaterOrEqual | equals | notEquals
  | and | or | not
  | length | concat | stringMid | atom | string
  | writeString | write | newLine
  | list | nth
  | hold | eval | set | prog | ifThen | whileDo
  deriving DecidableEq, Repr

namespace Primitive

/-- All primitives. -/
def all : List Primitive :=
  [add, subtract, multiply, divide, negate, power, abs, factorial, minus,
   lessThan, greaterThan, lessOrEqual, greaterOrEqual, equals, notEquals,
   and, or, not, length, concat, stringMid, atom, string, writeString, write, newLine,
   list, nth, hold, eval, set, prog, ifThen, whileDo]

/-- The label of a primitive. -/
def label : Primitive → String
  | add => "builtin_add"
  | subtract => "builtin_subtract"
  | multiply => "builtin_multiply"
  | divide => "builtin_divide"
  | negate => "builtin_negate"
  | power => "builtin_power"
  | abs => "builtin_abs"
  | factorial => "builtin_factorial"
  | minus => "builtin_minus"
  | lessThan => "builtin_less_than"
  | greaterThan => "builtin_greater_than"
  | lessOrEqual => "builtin_less_or_equal"
  | greaterOrEqual => "builtin_greater_or_equal"
  | equals => "builtin_equals"
  | notEquals => "builtin_not_equals"
  | and => "builtin_and"
  | or => "builtin_or"
  | not => "builtin_not"
  | length => "builtin_length"
  | concat => "builtin_concat"
  | stringMid => "builtin_string_mid"
  | atom => "builtin_atom"
  | string => "builtin_string"
  | writeString => "builtin_write_string"
  | write => "builtin_write"
  | newLine => "builtin_new_line"
  | list => "builtin_list"
  | nth => "builtin_nth"
  | hold => "builtin_hold"
  | eval => "builtin_eval"
  | set => "builtin_set"
  | prog => "builtin_prog"
  | ifThen => "builtin_if"
  | whileDo => "builtin_while"

/-- The primitive with a label. -/
def ofLabel? (label : String) : Option Primitive := all.find? (·.label == label)

theorem mem_all (p : Primitive) : p ∈ all := by cases p <;> decide

theorem ofLabel?_label (p : Primitive) : ofLabel? p.label = some p := by cases p <;> decide

end Primitive

end TermCalc
