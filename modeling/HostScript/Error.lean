/-!
# Script errors

An error is a kind and the reason it was found for, usually the name or the text at fault. The
number and the text of a kind are what users see. `ErrorState` is the place where the evaluation of
a script leaves its error: reporting the same kind again keeps the first reason, since an error
that is passed on must not lose where it came from.
-/

namespace HostScript

/-- What went wrong. -/
inductive ErrorKind where
  | success
  | stringTooLong
  | unexpectedEnd
  | unexpectedCharacter
  | unexpectedIdentifier
  | expectedRightParenthesis
  | expectedLeftParenthesis
  | expectedDelimiter
  | expectedFunction
  | expectedIdentifier
  | unknownFunction
  | unknownConstant
  | unknownVariable
  | unknownSymbol
  | unknownIdentifier
  | unknownObjectMember
  | assignConstant
  | maxIdentifierLength
  | tooManyParameters
  | tooFewParameters
  | multipleDeclaration
  | unexpectedKeyword
  | divisionByZero
  | labelNotFound
  | ipStack
  | externalKeyword
  | scriptTimeout
  | functionError
  | notLValue
  | notObject
  | compilerImplementationError
deriving Repr, DecidableEq, Inhabited

namespace ErrorKind

/-- The kinds in the order of their codes. -/
def all : List ErrorKind :=
  [.success, .stringTooLong, .unexpectedEnd, .unexpectedCharacter, .unexpectedIdentifier,
    .expectedRightParenthesis, .expectedLeftParenthesis, .expectedDelimiter, .expectedFunction,
    .expectedIdentifier, .unknownFunction, .unknownConstant, .unknownVariable, .unknownSymbol,
    .unknownIdentifier, .unknownObjectMember, .assignConstant, .maxIdentifierLength,
    .tooManyParameters, .tooFewParameters, .multipleDeclaration, .unexpectedKeyword,
    .divisionByZero, .labelNotFound, .ipStack, .externalKeyword, .scriptTimeout, .functionError,
    .notLValue, .notObject, .compilerImplementationError]

/-- The number of a kind. -/
def code (kind : ErrorKind) : Nat := kind.ctorIdx

def ofCode? (code : Int) : Option ErrorKind := if code < 0 then none else all[code.toNat]?

/-- What a user reads. -/
def text : ErrorKind → String
  | .success => "Success"
  | .stringTooLong => "String is too long"
  | .unexpectedEnd => "Unexpected end"
  | .unexpectedCharacter => "Unexpected character"
  | .unexpectedIdentifier => "Unexpected identifier"
  | .expectedRightParenthesis => "A right parenthesis was expected at the end"
  | .expectedLeftParenthesis => "A left parenthesis was expected at the end"
  | .expectedDelimiter => "Expected delimiter ';'"
  | .expectedFunction => "Expected function"
  | .expectedIdentifier => "Expected identifier"
  | .unknownFunction => "Unknown function"
  | .unknownConstant => "Unknown constant"
  | .unknownVariable => "Unknown variable"
  | .unknownSymbol => "Unknown symbol"
  | .unknownIdentifier => "Unknown identifier"
  | .unknownObjectMember => "Unknown object member"
  | .assignConstant => "Cannot assign a value to a constant"
  | .maxIdentifierLength => "Identifier length exceeded"
  | .tooManyParameters => "Too many parameters in function"
  | .tooFewParameters => "Too few parameters in function"
  | .multipleDeclaration => "Multiple declaration"
  | .unexpectedKeyword => "Unexpected keyword"
  | .divisionByZero => "Division by zero"
  | .labelNotFound => "Label not found"
  | .ipStack => "IP stack error"
  | .externalKeyword => "Malformed additional statement"
  | .scriptTimeout => "Script took to long to execute"
  | .functionError => "Function error"
  | .notLValue => "Not a left value"
  | .notObject => "Identifier references NOT an object"
  | .compilerImplementationError => "Compiler implementation fault"

/-- The text of any code. -/
def textOfCode (code : Int) : String :=
  match ofCode? code with
  | some kind => kind.text
  | none => "Unknown error"

end ErrorKind

/-- A kind of error together with its reason. -/
structure ScriptError where
  kind : ErrorKind
  reason : String
deriving Repr, DecidableEq, Inhabited

def ScriptError.message (e : ScriptError) : String := e.kind.text ++ " '" ++ e.reason ++ "'"

/-- The error of the last evaluation, or success. -/
structure ErrorState where
  kind : ErrorKind
  reason : String
deriving Repr, DecidableEq, Inhabited

namespace ErrorState

def clear : ErrorState := ⟨.success, ""⟩

/-- Reports an error; a kind that is reported already keeps its reason. -/
def report (state : ErrorState) (e : ScriptError) : ErrorState :=
  if state.kind = e.kind then state else ⟨e.kind, e.reason⟩

def isError (state : ErrorState) : Bool := state.kind != .success

def error? (state : ErrorState) : Option ScriptError :=
  if state.isError then some ⟨state.kind, state.reason⟩ else none

end ErrorState

end HostScript
