import Stubwright.CommandError

/-!
# Responses

What a command answers: documents for programs that call it, and plain text for people.  A document
starts with its status and the version of its form.
-/

namespace Stubwright.Response

/-- The version of the form of all documents. -/
def schemaVersion : String := "1"

def list (pattern : String) (interfaces : List String) : String :=
  Json.document <| .obj [("status", .str "ok"), ("schema_version", .str schemaVersion),
    ("pattern", .str pattern), ("interfaces", .strings interfaces)]

/-- The document that answers an implementation; nothing was missing if there is none. -/
def implement (interface concrete : String) (written : Bool)
    (implementation : Option Implementation) : String :=
  Json.document <| .obj [("status", .str "ok"), ("schema_version", .str schemaVersion),
    ("interface", .str interface), ("concrete", .str concrete), ("written", .bool written),
    ("implementation", .ofOption Json.ofImplementation implementation)]

/-- The document of an error. -/
def failure (code : Nat) (message : String) (details : Option Json) : String :=
  let details := match details with
    | some d => [("details", d)]
    | none => []
  Json.document <| .obj [("status", .str "error"), ("schema_version", .str schemaVersion),
    ("error", .obj ([("code", .num code), ("message", .str message)] ++ details))]

def ofError (e : CommandError) : String :=
  failure e.code e.message e.details?

/-- What is written for an error: on the output and beside it. -/
structure Told where
  /-- What goes to the output. -/
  out : String
  diagnostics : String
deriving DecidableEq, Repr, Inhabited

/-- Tells an error.  As plain text, a generated file that is not well formed goes to the output as
it is. -/
def tell (e : CommandError) (json : Bool) : Told :=
  if json then ⟨ofError e, ""⟩
  else
    let out := match e with
      | .formatFailed _ (some draft) => draft.fileContent
      | _ => ""
    ⟨out, "goimpl: " ++ e.message ++ "\n"⟩

end Stubwright.Response
