import TermCalc.Registry.Declaration

/-!
# The core table

The builtins and operators of the calculator.

* `coreDeclarations`: the table.
* `coreRegistry`: the registry of the table. `build_coreDeclarations`: every declaration in it can
  be carried out.
-/

namespace TermCalc

/-- The functions and aliases of the core table, by subject. -/
def coreFunctions : List Declaration :=
  let function (p : Primitive) (name : String) (arity : Int) (flags : Flags) : Declaration :=
    .function p.label name arity flags none
  let synonym (p : Primitive) (name : String) (arity : Int) (flags : Flags) : Declaration :=
    .synonym p.label name arity flags
  [ -- arithmetic
   function .add "MathAdd" 2 .fixed,
   function .subtract "MathSubtract" 2 .fixed,
   function .multiply "MathMultiply" 2 .fixed,
   function .divide "MathDivide" 2 .fixed,
   function .negate "MathNegate" 1 .fixed,
   function .power "MathPower" 2 .fixed,
   function .abs "MathAbs" 1 .fixed,
   function .factorial "Factorial" 1 .fixed,
   .function Primitive.minus.label "-" 1 .atLeast (some 2),
   synonym .add "+" 2 .fixed,
   synonym .multiply "*" 2 .fixed,
   synonym .divide "/" 2 .fixed,
   synonym .power "^" 2 .fixed,
   synonym .factorial "!" 1 .fixed,
   synonym .abs "Abs" 1 .fixed,
   -- comparison
   function .lessThan "LessThan" 2 .fixed,
   function .greaterThan "GreaterThan" 2 .fixed,
   function .lessOrEqual "LessOrEqual" 2 .fixed,
   function .greaterOrEqual "GreaterOrEqual" 2 .fixed,
   function .equals "Equals" 2 .fixed,
   function .notEquals "NotEquals" 2 .fixed,
   synonym .lessThan "<" 2 .fixed,
   synonym .greaterThan ">" 2 .fixed,
   synonym .lessOrEqual "<=" 2 .fixed,
   synonym .greaterOrEqual ">=" 2 .fixed,
   synonym .equals "=" 2 .fixed,
   synonym .notEquals "!=" 2 .fixed,
   -- logic
   function .and "And" 1 .heldAtLeast,
   function .or "Or" 1 .heldAtLeast,
   function .not "Not" 1 .fixed,
   -- strings and atoms
   function .length "Length" 1 .fixed,
   function .concat "Concat" 0 .atLeast,
   function .stringMid "StringMid" 3 .fixed,
   function .atom "Atom" 1 .fixed,
   function .string "String" 1 .fixed,
   synonym .concat "ConcatStrings" 0 .atLeast,
   -- output
   function .writeString "WriteString" 1 .fixed,
   function .write "Write" 1 .atLeast,
   function .newLine "NewLine" 0 .fixed,
   -- lists
   function .list "List" 0 .atLeast,
   function .nth "Nth" 2 .fixed,
   -- control
   function .hold "Hold" 1 .held,
   function .eval "Eval" 1 .fixed,
   function .set "Set" 2 .held,
   function .prog "Prog" 0 .heldAtLeast,
   .function Primitive.ifThen.label "If" 2 .heldAtLeast (some 3),
   function .whileDo "While" 2 .held,
   synonym .set ":=" 2 .held]

/-- The operators of the core table. -/
def coreOperators : List Declaration :=
  [.operator .postfixed 0 "!",
   .operator .infixed 20 "^",
   .operator .infixed 30 "/",
   .operator .infixed 40 "*",
   .operator .prefixed 50 "-",
   .operator .infixed 70 "+",
   .operator .infixed 70 "-",
   .operator .infixed 90 "<",
   .operator .infixed 90 ">",
   .operator .infixed 90 "<=",
   .operator .infixed 90 ">=",
   .operator .infixed 90 "=",
   .operator .infixed 90 "!=",
   .operator .prefixed 100 "Not",
   .operator .infixed 1000 "And",
   .operator .infixed 1010 "Or",
   .operator .infixed 10000 ":=",
   .operator .bodied loosest "While"]

/-- **The core table.** -/
def coreDeclarations : List Declaration := coreFunctions ++ coreOperators

/-- **The registry of the core table.** -/
def coreRegistry : Registry :=
  match Registry.build coreDeclarations with
  | .ok r => r
  | .error _ => .empty

theorem build_coreDeclarations : Registry.build coreDeclarations = .ok coreRegistry := by
  rfl

end TermCalc
