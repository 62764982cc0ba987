import PageScript.Text.Basic

/-! Rules that sources break, and what is told about it. -/

namespace PageScript

inductive Rule where
  | indent
  | depth
  | grammar
  | htmlMix
  | block
  | matrix
  | order
  | brace
  | classHeader
  deriving DecidableEq, Repr

namespace Rule

def all : List Rule :=
  [.indent, .depth, .grammar, .htmlMix, .block, .matrix, .order, .brace, .classHeader]

def code : Rule → String
  | .indent => "LX-ERR-INDENT"
  | .depth => "LX-ERR-DEPTH"
  | .grammar => "LX-ERR-GRAMMAR"
  | .htmlMix => "LX-ERR-HTML-MIX"
  | .block => "LX-ERR-BLOCK"
  | .matrix => "LX-ERR-MATRIX"
  | .order => "LX-ERR-SYNTAX-ORDER"
  | .brace => "LX-ERR-BRACE"
  | .classHeader => "LX-ERR-CLASS"

def guarantee : Rule → String
  | .indent => "Every template line is indented by a whole number of shift units."
  | .depth => "A template line is at most one level deeper than its predecessor."
  | .grammar => "Widget lines consist only of recognised tokens."
  | .htmlMix => "Raw HTML belongs to a widget or control node, and never next to nested widgets."
  | .block => "Block definitions live at depth 0 and every link names a defined block."
  | .matrix => "A matrix renders exactly one child widget per item."
  | .order => "`elseif` and `else` directly follow an `if` or `elseif`."
  | .brace => "Class bodies and call argument lists are brace balanced."
  | .classHeader => "Class headers name the class being declared."

def guaranteeOf (code : String) : String :=
  match all.find? (·.code == code) with
  | some rule => rule.guarantee
  | none => "Unknown invariant."

end Rule

inductive Cause where
  | belowBase
  | notMultiple (indent unit : Nat)
  | tooDeep (depth allowed : Nat)
  | htmlOutside
  | htmlBesideWidgets
  | htmlInBlock
  | childrenOfLink (name : String)
  | blockWithoutName
  | malformedBlock
  | nestedBlock (name : String)
  | unclosedTag
  | textAfterTag
  | callWithoutArguments
  | unbalancedBrackets
  | unterminatedText
  | unexpectedCharacter (c : Char)
  | expectedName
  | invalidGeometry (geometry : String)
  | elseWithCondition
  | withoutExpression (head : String)
  | blockTwice (name : String)
  | strayElse
  | matrixChildren (count : Nat)
  | undefinedBlock (name : String)
  | linkWithChildren (name : String)
  | unbalancedClass (name : Option String)
  | malformedClass (header : String)
  deriving DecidableEq, Repr

namespace Cause

def rule : Cause → Rule
  | .belowBase | .notMultiple _ _ => .indent
  | .tooDeep _ _ => .depth
  | .htmlOutside | .htmlBesideWidgets | .htmlInBlock => .htmlMix
  | .childrenOfLink _ | .nestedBlock _ | .blockTwice _ | .undefinedBlock _
  | .linkWithChildren _ => .block
  | .blockWithoutName | .malformedBlock | .unclosedTag | .textAfterTag | .callWithoutArguments
  | .unbalancedBrackets | .unterminatedText | .unexpectedCharacter _ | .expectedName
  | .invalidGeometry _ | .elseWithCondition | .withoutExpression _ => .grammar
  | .strayElse => .order
  | .matrixChildren _ => .matrix
  | .unbalancedClass _ => .brace
  | .malformedClass _ => .classHeader

def message : Cause → String
  | .belowBase => "line is indented less than the template base"
  | .notMultiple indent unit =>
      s!"indentation {indent} is not a multiple of the shift unit {unit}"
  | .tooDeep depth allowed => s!"line at depth {depth} where at most {allowed} is allowed"
  | .htmlOutside => "raw HTML outside of any widget"
  | .htmlBesideWidgets => "widget holds both raw HTML and nested widgets"
  | .htmlInBlock => "raw HTML directly inside a block"
  | .childrenOfLink name => s!"block link &{name} cannot have children"
  | .blockWithoutName => "block without a name"
  | .malformedBlock => "malformed block tag"
  | .nestedBlock name => s!"block *{name} must be defined at depth 0"
  | .unclosedTag => "widget tag is not closed with `>`"
  | .textAfterTag => "text after widget tag"
  | .callWithoutArguments => "method call without arguments"
  | .unbalancedBrackets => "unbalanced brackets in widget line"
  | .unterminatedText => "unterminated text literal"
  | .unexpectedCharacter c => s!"unexpected character '{c}' in widget line"
  | .expectedName => "expected a name"
  | .invalidGeometry geometry => s!"invalid geometry [{geometry}]"
  | .elseWithCondition => "`else` takes no condition"
  | .withoutExpression head => s!"`{head}` without expression"
  | .blockTwice name => s!"block *{name} defined twice"
  | .strayElse => "`elseif`/`else` without a preceding `if`"
  | .matrixChildren count => s!"matrix needs exactly one child widget, found {count}"
  | .undefinedBlock name => s!"link to undefined block *{name}"
  | .linkWithChildren name => s!"block link &{name} has children"
  | .unbalancedClass (some name) => s!"unbalanced body of class {name}"
  | .unbalancedClass none => "unbalanced class body"
  | .malformedClass header => s!"malformed class header `{header}`"

end Cause

structure Violation where
  cause : Cause
  file : String
  line : Nat
  column : Nat := 1
  context : Option String := none
  deriving DecidableEq, Repr

structure Report where
  code : String
  message : String
  file : String
  line : Nat
  column : Nat
  context : Option String := none
  hints : List String := []
  deriving DecidableEq, Repr

namespace Report

def errorType : String := "STRUCTURAL_PARSE_ERROR"

def guarantee (report : Report) : String :=
  Rule.guaranteeOf report.code

def display (report : Report) : String :=
  s!"[{report.code}] {report.message} ({report.file}:{report.line})"

end Report

namespace Violation

def report (violation : Violation) : Report where
  code := violation.cause.rule.code
  message := violation.cause.message
  file := violation.file
  line := violation.line
  column := violation.column
  context := violation.context

def display (violation : Violation) : String :=
  violation.report.display

end Violation

end PageScript
