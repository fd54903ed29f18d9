import Stubwright.Span
import Stubwright.Text.Lines
import Stubwright.Token.Kind

/-!
# Syntax errors

A syntax error is a cause at a place.  The causes are data; their wording stands in
`SyntaxError.Cause.message` and nowhere else.  While a text is read a failure is a `Fault`, which
knows its place only as a site; `Fault.locate` adds line and column.

Where no token starts, the text alone does not settle how far the range of the failure goes.  A site
then keeps the text from there on, and `Site.span` takes the `Extent` that decides it.
-/

namespace Stubwright

/-- What stood where something else was wanted. -/
inductive Found where
  /-- A line break that ends a statement. -/
  | newline
  | token (text : String)
  /-- The end of the text. -/
  | eof
deriving DecidableEq, Repr

/-- What the grammar wants next. -/
inductive Wanted where
  | mark (spelling : String)
  | identifier
  | importPath
  | declaration
  | endOfTopLevel
  | type
  | typeArgument
  | fieldOrEmbedded
  | parameterEnd
deriving DecidableEq, Repr

namespace SyntaxError

/-- Why a text is not a Go source text. -/
inductive Cause where
  | invalidToken
  /-- A block comment is never closed. -/
  | unterminatedComment
  | misplacedByteOrderMark
  /-- The grammar wants something else here. -/
  | expected (wanted : Wanted) (found : Found)
  /-- An import follows another kind of declaration. -/
  | lateImport (found : Found)
  /-- A list of type parameters ends in a name without a constraint. -/
  | missingConstraint (found : Found)
  /-- Tokens follow a type that should stand alone. -/
  | afterType (found : Found)
  | unbalancedDelimiter (found : Found)
  /-- A declaration of values ends inside a delimiter. -/
  | unterminatedDeclaration (found : Found)
  /-- A receiver is not a single named type or a pointer to one. -/
  | invalidReceiver
  /-- A function body is never closed. -/
  | unclosedDelimiter
  | mixedParameters
deriving DecidableEq, Repr

end SyntaxError

def Found.message : Found → String
  | .newline => "newline"
  | .token text => "'" ++ text ++ "'"
  | .eof => "EOF"

def Wanted.message : Wanted → String
  | .mark spelling => "'" ++ spelling ++ "'"
  | .identifier => "identifier"
  | .importPath => "import path"
  | .declaration => "declaration"
  | .endOfTopLevel => "';' after top level declaration"
  | .type => "type"
  | .typeArgument => "type argument"
  | .fieldOrEmbedded => "field name or embedded type"
  | .parameterEnd => "',' or ')' in parameter list"

def SyntaxError.Cause.message : SyntaxError.Cause → String
  | .invalidToken => "invalid token"
  | .unterminatedComment => "unterminated comment"
  | .misplacedByteOrderMark => "misplaced byte order mark"
  | .expected wanted found => "expected " ++ wanted.message ++ ", found " ++ found.message
  | .lateImport found =>
    "imports must appear before other declarations, found " ++ found.message
  | .missingConstraint found =>
    "type parameter is missing a constraint, found " ++ found.message
  | .afterType found => "unexpected tokens after type, found " ++ found.message
  | .unbalancedDelimiter found => "unbalanced delimiter, found " ++ found.message
  | .unterminatedDeclaration found => "unterminated declaration, found " ++ found.message
  | .invalidReceiver => "invalid receiver"
  | .unclosedDelimiter => "unclosed delimiter"
  | .mixedParameters => "mixed named and unnamed parameters"

/-- How many bytes a failure takes up where no token starts, told by the text from there on. -/
abbrev Extent := List Char → Nat

/-- Where a failure is. -/
inductive Site where
  | range (span : Span)
  /-- An offset where no token starts, and the text from there on. -/
  | invalid (start : Nat) (rest : List Char)
deriving DecidableEq, Repr

instance : Coe Span Site := ⟨.range⟩

namespace Site

/-- The range of a failure. -/
def span (extent : Extent) : Site → Span
  | .range span => span
  | .invalid start rest => ⟨start, start + extent rest⟩

/-- The range of a failure as far as the text settles it: where no token starts, its start. -/
def known : Site → Span :=
  span fun _ => 0

end Site

/-- A failure while a text is read. -/
structure Fault where
  /-- What went wrong. -/
  cause : SyntaxError.Cause
  /-- Where it went wrong; nothing stands for the end of the text. -/
  site : Option Site
deriving DecidableEq, Repr

/-- The range of a failure, unless it is the end of the text. -/
def Fault.span? (extent : Extent) (f : Fault) : Option Span :=
  f.site.map (Site.span extent)

/-- A failure located in the text it came from. -/
structure SyntaxError where
  /-- What went wrong. -/
  cause : SyntaxError.Cause
  site : Site
  line : Nat
  /-- The column of the start of the range, in bytes. -/
  col : Nat
deriving DecidableEq, Repr

/-- The failure with its line and its column in a text. -/
def Fault.locate (text : List Char) (f : Fault) : SyntaxError :=
  let site := f.site.getD (Span.emptyAt (Text.byteSize text))
  let (line, col) := Text.position text site.known.start
  { cause := f.cause, site, line, col }

namespace SyntaxError

/-- The range of the error as far as the text settles it. -/
def span (e : SyntaxError) : Span :=
  e.site.known

def message (e : SyntaxError) : String :=
  e.cause.message

/-- The description with its place, as `line:column: description`. -/
def display (e : SyntaxError) : String :=
  toString e.line ++ ":" ++ toString e.col ++ ": " ++ e.message

end SyntaxError

end Stubwright
