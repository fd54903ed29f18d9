import Stubwright.Token

/-!
# Reading tokens

A parser reads tokens from a cursor, which holds the tokens that are left and the end of the last
one taken.  It either fails with a fault or answers with a value and the cursor behind what it has
taken.  Going back is keeping an earlier cursor: `attempt?` does so when a reading fails or turns
out to be the wrong one.

Loops and nesting are bounded by the number of tokens that are left, which no reading exceeds,
since every round of a loop and every level of nesting takes a token.
-/

namespace Stubwright

/-- A place between two tokens. -/
structure Cursor where
  rest : List Token
  /-- The end of the last token taken, 0 before the first. -/
  behind : Nat
deriving Repr, Inhabited

/-- Reads a value from tokens, or fails. -/
abbrev Parser := StateT Cursor (Except Fault)

namespace Parser

variable {α β : Type}

def peekAt (n : Nat) : Parser (Option TokenKind) :=
  return (← get).rest[n]?.map (·.kind)

def peek : Parser (Option TokenKind) :=
  peekAt 0

def isAt (kind : TokenKind) : Parser Bool :=
  return (← peek) == some kind

/-- Whether no token is left. -/
def atEnd : Parser Bool :=
  return (← get).rest.isEmpty

/-- The end of the last token taken. -/
def behind : Parser Nat :=
  return (← get).behind

/-- The start of the next token; at the end, the end of the last one. -/
def ahead : Parser Nat := do
  let s ← get
  return (s.rest.head?.map Token.start).getD s.behind

/-- Fails at the next token, or at the end of the text. -/
def failHere (cause : Found → SyntaxError.Cause) : Parser α := fun s =>
  match s.rest with
  | [] => .error ⟨cause .eof, none⟩
  | t :: _ => .error ⟨cause t.found, some t.span⟩

def failAt (span : Span) (cause : SyntaxError.Cause) : Parser α := fun _ =>
  .error ⟨cause, some span⟩

def next? : Parser (Option Token) := fun s =>
  match s.rest with
  | [] => .ok (none, s)
  | t :: rest => .ok (some t, ⟨rest, t.stop⟩)

/-- Takes the next token if it has this kind, and says whether it did. -/
def eat (kind : TokenKind) : Parser Bool := fun s =>
  match s.rest with
  | [] => .ok (false, s)
  | t :: rest => if t.kind = kind then .ok (true, ⟨rest, t.stop⟩) else .ok (false, s)

def wanted (kind : TokenKind) : Wanted :=
  match kind.spelling? with
  | some spelling => .mark spelling
  | none => .identifier

def expect (kind : TokenKind) : Parser Token := fun s =>
  match s.rest with
  | [] => .error ⟨.expected (wanted kind) .eof, none⟩
  | t :: rest =>
    if t.kind = kind then .ok (t, ⟨rest, t.stop⟩)
    else .error ⟨.expected (wanted kind) t.found, some t.span⟩

def identifier : Parser String :=
  return (← expect .ident).text

/-- Takes the end of a statement, which may be left out before a closing mark. -/
def endOrClose (close : TokenKind) : Parser Unit := do
  if ← eat .semi then return
  if ← isAt close then return
  failHere (.expected (.mark ";"))

/-- Reads with `p`; when it fails, or when what it read is not to be kept, goes back to where it
started. -/
def attempt? (p : Parser α) (keep : α → Cursor → Bool) : Parser (Option α) := fun s =>
  match p s with
  | .ok (a, s') => .ok (if keep a s' then (some a, s') else (none, s))
  | .error _ => .ok (none, s)

/-- Runs `step` for at most `n` rounds, until it answers with a result. -/
def rounds (step : α → Parser (α ⊕ β)) : Nat → α → Parser β
  | 0, _ => failHere (.expected .declaration)
  | n + 1, a => do
    match ← step a with
    | .inl a' => rounds step n a'
    | .inr b => return b

/-- Runs `step`, which takes a token whenever it wants another round, until it answers with a
result. -/
def loop (step : α → Parser (α ⊕ β)) (a : α) : Parser β := do
  rounds step ((← get).rest.length + 1) a

/-- Reads items with `item` up to the closing mark, which is left in place.  The step reads an item
and says whether another may follow. -/
def itemsUntil (close : TokenKind) (item : Parser (α × Bool)) : Parser (List α) :=
  loop (fun items => do
    if ← isAt close then return .inr items
    let (a, more) ← item
    return if more then .inl (items ++ [a]) else .inr (items ++ [a])) []

end Parser

end Stubwright
