import ChannelBasic.Location

/-!
# Diagnostic — why a program text is refused

Each refusal breaks one `Rule`.  A `Diagnostic` says which, where, and about what; `message` is the
one place where the wording is fixed.
-/

namespace ChannelBasic

/-- What a program text has to respect. -/
inductive Rule where
  | importNotFound
  | unknownCharacter
  | unknownOperator
  | missedClosingQuote
  | wrongNumberFormat
  | bracketDoesNotMatch
  | missedBracket
  | unexpectedSequence
  | unexpectedEndOfFile
  | expectedExpression
  | expectedModuleName
  | expectedModuleExecutor
  | moduleAlreadyExists
  | expectedAsKeyword
  | expectedDataType
  | expectedToKeyword
  | expectedThenKeyword
  | expectedTypeName
  | typeAlreadyExists
  | expectedFunctionName
  | expectedArgument
  | expectedComma
  | expectedFieldName
  | expectedVariableName
  | expectedFileName
  | invalidDataPrefix
  | duplicateDataSet
  | functionAlreadyExists
  | counterDoesNotMatch
  | unknownType
  | unknownModule
  | unknownField
  | unknownOutputField
  | unknownInputField
  | cannotResolveSymbol
  | duplicateConstant
  | duplicateField
  | duplicateArgument
  | duplicateVariable
  | duplicateChannel
  | nonTransferableTypes
  | recursiveDefinition
  | expectedConstantExpression
  | invalidStringLength
  | incompatibleTypes
  | incompatibleArgumentType
  | invalidNumberOfArguments
  | operatorNotApplicable
  | conditionMustBeBoolean
  | counterMustBeNumeric
  | canNotAssignToConstant
  | expressionIsNotAssignable
  | notAStructure
  | functionDoesNotReturnValue
  | returnValueExpected
  | unexpectedReturnValue
  | fieldCanNotBeConstant
  | fieldCanNotBeAbstract
  | argumentCanNotBeConstant
  | argumentCanNotBeAbstract
  | returnTypeCanNotBeConstant
  | returnTypeCanNotBeAbstract
  | variableCanNotBeAbstract
  | internalError
  deriving DecidableEq, Repr, Inhabited

/-- How a broken rule is announced. -/
def Rule.title : Rule → String
  | .importNotFound => "IMPORT NOT FOUND"
  | .unknownCharacter => "UNKNOWN CHARACTER"
  | .unknownOperator => "UNKNOWN OPERATOR"
  | .missedClosingQuote => "MISSED CLOSING QUOTE"
  | .wrongNumberFormat => "WRONG NUMBER FORMAT"
  | .bracketDoesNotMatch => "BRACKET DOES NOT MATCH"
  | .missedBracket => "MISSED BRACKET"
  | .unexpectedSequence => "UNEXPECTED SEQUENCE"
  | .unexpectedEndOfFile => "UNEXPECTED END OF FILE"
  | .expectedExpression => "EXPECTED EXPRESSION"
  | .expectedModuleName => "EXPECTED MODULE NAME"
  | .expectedModuleExecutor => "EXPECTED MODULE EXECUTOR"
  | .moduleAlreadyExists => "MODULE ALREADY EXISTS"
  | .expectedAsKeyword => "EXPECTED AS"
  | .expectedDataType => "EXPECTED DATA TYPE"
  | .expectedToKeyword => "EXPECTED TO"
  | .expectedThenKeyword => "EXPECTED THEN"
  | .expectedTypeName => "EXPECTED TYPE NAME"
  | .typeAlreadyExists => "TYPE ALREADY EXISTS"
  | .expectedFunctionName => "EXPECTED FUNCTION NAME"
  | .expectedArgument => "EXPECTED ARGUMENT"
  | .expectedComma => "EXPECTED COMMA"
  | .expectedFieldName => "EXPECTED FIELD NAME"
  | .expectedVariableName => "EXPECTED VARIABLE NAME"
  | .expectedFileName => "EXPECTED FILE NAME"
  | .invalidDataPrefix => "INVALID DATA PREFIX"
  | .duplicateDataSet => "DUPLICATE DATA SET"
  | .functionAlreadyExists => "FUNCTION ALREADY EXISTS"
  | .counterDoesNotMatch => "COUNTER DOES NOT MATCH"
  | .unknownType => "UNKNOWN TYPE"
  | .unknownModule => "UNKNOWN MODULE"
  | .unknownField => "UNKNOWN FIELD"
  | .unknownOutputField => "UNKNOWN OUTPUT FIELD"
  | .unknownInputField => "UNKNOWN INPUT FIELD"
  | .cannotResolveSymbol => "CANNOT RESOLVE SYMBOL"
  | .duplicateConstant => "DUPLICATE CONSTANT"
  | .duplicateField => "DUPLICATE FIELD"
  | .duplicateArgument => "DUPLICATE ARGUMENT"
  | .duplicateVariable => "DUPLICATE VARIABLE"
  | .duplicateChannel => "DUPLICATE CHANNEL"
  | .nonTransferableTypes => "NON-TRANSFERABLE TYPES"
  | .recursiveDefinition => "RECURSIVE DEFINITION"
  | .expectedConstantExpression => "EXPECTED CONSTANT EXPRESSION"
  | .invalidStringLength => "INVALID STRING LENGTH"
  | .incompatibleTypes => "INCOMPATIBLE TYPES"
  | .incompatibleArgumentType => "INCOMPATIBLE ARGUMENT TYPE"
  | .invalidNumberOfArguments => "INVALID NUMBER OF ARGUMENTS"
  | .operatorNotApplicable => "OPERATOR NOT APPLICABLE"
  | .conditionMustBeBoolean => "CONDITION MUST BE BOOLEAN"
  | .counterMustBeNumeric => "COUNTER MUST BE NUMERIC"
  | .canNotAssignToConstant => "CAN NOT ASSIGN TO CONSTANT"
  | .expressionIsNotAssignable => "EXPRESSION IS NOT ASSIGNABLE"
  | .notAStructure => "NOT A STRUCTURE"
  | .functionDoesNotReturnValue => "FUNCTION DOES NOT RETURN VALUE"
  | .returnValueExpected => "RETURN VALUE EXPECTED"
  | .unexpectedReturnValue => "UNEXPECTED RETURN VALUE"
  | .fieldCanNotBeConstant => "FIELD CAN NOT BE CONSTANT"
  | .fieldCanNotBeAbstract => "FIELD CAN NOT BE ABSTRACT"
  | .argumentCanNotBeConstant => "ARGUMENT CAN NOT BE CONSTANT"
  | .argumentCanNotBeAbstract => "ARGUMENT CAN NOT BE ABSTRACT"
  | .returnTypeCanNotBeConstant => "RETURN TYPE CAN NOT BE CONSTANT"
  | .returnTypeCanNotBeAbstract => "RETURN TYPE CAN NOT BE ABSTRACT"
  | .variableCanNotBeAbstract => "VARIABLE CAN NOT BE ABSTRACT"
  | .internalError => "INTERNAL ERROR"

/-- A broken rule, its place and what it is about. -/
structure Diagnostic where
  /-- The rule that is broken. -/
  rule : Rule
  /-- Where, if that is known. -/
  location : Option Location
  /-- What it is about; may be empty. -/
  detail : String
  deriving DecidableEq, Repr, Inhabited

/-- Computations that may be refused. -/
abbrev Checked := Except Diagnostic

namespace Rule

/-- The rule is broken here. -/
def here (rule : Rule) (location : Location) : Diagnostic := ⟨rule, some location, ""⟩

/-- The rule is broken here, by this. -/
def about (rule : Rule) (location : Location) (detail : String) : Diagnostic :=
  ⟨rule, some location, detail⟩

/-- The rule is broken by this, at no place in the text. -/
def nowhere (rule : Rule) (detail : String) : Diagnostic := ⟨rule, none, detail⟩

end Rule

namespace Diagnostic

/-- A place for a diagnostic that has none: **the first place wins**. -/
def placed (d : Diagnostic) (location : Location) : Diagnostic :=
  match d.location with
  | some _ => d
  | none => { d with location := some location }

/-- The text `TITLE IN place; detail`, each part only where there is one. -/
def message (d : Diagnostic) : String :=
  let place := match d.location with
    | some l => " IN " ++ l.render
    | none => ""
  let detail := if d.detail.isEmpty then "" else "; " ++ d.detail
  d.rule.title ++ place ++ detail

end Diagnostic

end ChannelBasic
