import Stubwright.Interface

/-!
# Method sets

The methods that can be called on a pointer to a declared type: those declared for the type, and
those of embedded fields, at the depth they are embedded.  A shallower method or field hides deeper
ones of its name, and of several methods at one depth each hides the other.

The search goes depth by depth.  A type is looked at once; `fresh` holds the names of the types
that were not looked at yet, and a level at which none of them is left ends the search.
-/

namespace Stubwright

/-- A method of a method set: its signature and how deep it was found. -/
structure MethodEntry where
  /-- Where the signature was written. -/
  scope : Scope
  sig : Signature
  /-- How deep the method is embedded; 0 for methods of the type itself. -/
  depth : Nat
deriving DecidableEq, Inhabited

/-- Methods by name, in alphabetical order. -/
structure MethodSet where
  entries : List (String × MethodEntry)
deriving DecidableEq, Inhabited

namespace MethodSet

/-- The set without methods. -/
def empty : MethodSet := ⟨[]⟩

/-- The method of a name. -/
def get? (s : MethodSet) (name : String) : Option MethodEntry :=
  s.entries.lookup name

/-- Whether the set has a method of this name. -/
def contains (s : MethodSet) (name : String) : Bool :=
  (s.get? name).isSome

/-- The number of methods. -/
def size (s : MethodSet) : Nat :=
  s.entries.length

/-- Puts a method into its alphabetical place. -/
def insertEntry (name : String) (entry : MethodEntry) :
    List (String × MethodEntry) → List (String × MethodEntry)
  | [] => [(name, entry)]
  | (n, e) :: rest =>
    if name < n then (name, entry) :: (n, e) :: rest else (n, e) :: insertEntry name entry rest

/-- Adds a method. -/
def insert (s : MethodSet) (name : String) (entry : MethodEntry) : MethodSet :=
  ⟨insertEntry name entry s.entries⟩

end MethodSet

/-- A type that methods are looked for in. -/
inductive Embedded where
  | declared (decl : Declared)
  /-- The predeclared `error`, embedded in a struct of the given scope. -/
  | error (scope : Scope)
deriving DecidableEq, Inhabited

/-- What is found at one depth. -/
structure Level where
  methods : List (String × MethodEntry)
  fields : List String
  /-- The types embedded one level deeper. -/
  next : List Embedded
deriving Inhabited

namespace Level

/-- Nothing found. -/
def empty : Level := ⟨[], [], []⟩

/-- Two findings one after the other. -/
def append (a b : Level) : Level :=
  ⟨a.methods ++ b.methods, a.fields ++ b.fields, a.next ++ b.next⟩

/-- The method of a name, if it is the only one and no field has the name. -/
def unique? (l : Level) (name : String) : Option MethodEntry :=
  match l.methods.filter fun m => m.1 == name with
  | [(_, entry)] => if l.fields.contains name then none else some entry
  | _ => none

/-- Adds the methods of a level that no shallower name hides to a set. -/
def addTo (l : Level) (hidden : Names) (set : MethodSet) : MethodSet :=
  (Names.ofList (l.methods.map (·.1))).foldl (fun set name =>
    if hidden.contains name then set
    else match l.unique? name with
      | some entry => set.insert name entry
      | none => set) set

/-- The names that are hidden below, with those of this depth. -/
def hide (l : Level) (hidden : Names) : Names :=
  Names.union (Names.ofList (l.methods.map (·.1) ++ l.fields)) hidden

end Level

/-- The name of an embedded field: that of its type, without a package, pointers and type
arguments. -/
def TypeExpr.embeddedName? : TypeExpr → Option String
  | .name n => some n
  | .qualified _ n => some n
  | .pointer elem => elem.embeddedName?
  | .paren elem => elem.embeddedName?
  | .generic base _ => base.embeddedName?
  | _ => none

namespace Program

/-- The type that a declared type is made of, by way of at most `hops` declarations, and the scope
it was written in.  A name that stands for nothing known is left as it is. -/
def underlyingWithin (p : Program) : (hops : Nat) → Declared → Scope × TypeExpr
  | 0, decl => (decl.scope, decl.spec.type.unparen)
  | hops + 1, decl =>
    let type := decl.spec.type.unparen
    let step := match p.resolveType? decl.scope type with
      | some next => p.underlyingWithin hops next
      | none => (decl.scope, type)
    match type with
    | .name _ | .qualified .. | .generic .. => step
    | _ => (decl.scope, type)

/-- What a declared type stands for, and where that was written. -/
def underlying (p : Program) (decl : Declared) : Scope × TypeExpr :=
  p.underlyingWithin hopLimit decl

/-- Whether a declared type stands for an interface. -/
def isInterface (p : Program) (decl : Declared) : Bool :=
  match (p.underlying decl).2 with
  | .interface _ => true
  | .name name => name == "any" || name == "error"
  | _ => false

/-- The methods that a type has itself: those of an interface, or those declared for it. -/
def declaredMethods (p : Program) (depth : Nat) (decl : Declared) :
    Except StubError (List (String × MethodEntry)) :=
  if p.isInterface decl then
    match p.expand decl [] with
    | .error e => .error e
    | .ok expansion => .ok <| expansion.groups.flatMap fun group =>
        group.methods.map fun m => (m.name, ⟨group.scope, m.sig, depth⟩)
  else .ok <| (decl.package.methodsOf decl.name).map fun (file, func) =>
    (func.name, ⟨⟨decl.package, file⟩, func.sig, depth⟩)

/-- The type that an embedded field embeds, if it is known. -/
def embeddedType? (p : Program) (scope : Scope) (type : TypeExpr) : Option Embedded :=
  match p.resolveType? scope type with
  | some decl => (p.followAlias? decl).map .declared
  | none =>
    match type.unparen with
    | .name name => if name = "error" then some (.error scope) else none
    | _ => none

/-- The names and the embedded types of a group of fields. -/
def fieldLevel (p : Program) (scope : Scope) (field : Field) : Level :=
  if field.isEmbedded then
    ⟨[], field.type.embeddedName?.toList, (p.embeddedType? scope field.type).toList⟩
  else ⟨[], field.names, []⟩

/-- The names and the embedded types of the fields of a declared type. -/
def structLevel (p : Program) (decl : Declared) : Level :=
  match p.underlying decl with
  | (scope, .struct fields) => (fields.map (p.fieldLevel scope)).foldr Level.append .empty
  | _ => .empty

/-- What a declared type brings in at a depth.  A type whose methods cannot be listed is left out,
unless it is the type that the methods are asked for. -/
def declaredLevel (p : Program) (depth : Nat) (decl : Declared) : Except StubError Level :=
  match p.declaredMethods depth decl with
  | .ok methods => .ok (Level.append ⟨methods, [], []⟩ (p.structLevel decl))
  | .error e => if depth = 0 then .error e else .ok .empty

/-- What the types embedded at a depth bring in, and the names of the types that are still to be
looked at. -/
def levelOf (p : Program) (depth : Nat) (fresh : List String) :
    List Embedded → Except StubError (Level × List String)
  | [] => .ok (.empty, fresh)
  | .error scope :: rest =>
    match p.levelOf depth fresh rest with
    | .error e => .error e
    | .ok (level, fresh) =>
      .ok (Level.append ⟨[("Error", ⟨scope, errorSignature, depth⟩)], [], []⟩ level, fresh)
  | .declared decl :: rest =>
    if fresh.contains decl.qualifiedName then
      match p.declaredLevel depth decl with
      | .error e => .error e
      | .ok first =>
        match p.levelOf depth (Names.without decl.qualifiedName fresh) rest with
        | .error e => .error e
        | .ok (level, fresh) => .ok (Level.append first level, fresh)
    else p.levelOf depth fresh rest

theorem levelOf_fresh {p : Program} {depth : Nat} {fresh : List String} {types : List Embedded}
    {level : Level} {left : List String} (h : p.levelOf depth fresh types = .ok (level, left)) :
    left.length < fresh.length ∨ left = fresh ∧ level.next = [] := by
  induction types generalizing fresh level left with
  | nil =>
    simp only [levelOf, Except.ok.injEq, Prod.mk.injEq] at h
    exact .inr ⟨h.2.symm, by simp [← h.1, Level.empty]⟩
  | cons t rest ih =>
    cases t with
    | error scope =>
      simp only [levelOf] at h
      split at h
      · simp at h
      · rename_i hrest
        simp only [Except.ok.injEq, Prod.mk.injEq] at h
        obtain ⟨hl, rfl⟩ := h
        rcases ih hrest with hlt | ⟨heq, hnext⟩
        · exact .inl hlt
        · exact .inr ⟨heq, by simp [← hl, Level.append, hnext]⟩
    | declared decl =>
      simp only [levelOf] at h
      split at h
      · rename_i hmem
        split at h
        · simp at h
        · split at h
          · simp at h
          · rename_i hrest
            simp only [Except.ok.injEq, Prod.mk.injEq] at h
            obtain ⟨-, rfl⟩ := h
            have shorter := Names.length_without_lt (List.contains_iff_mem.1 hmem)
            rcases ih hrest with hlt | ⟨heq, -⟩
            · exact .inl (Nat.lt_trans hlt shorter)
            · exact .inl (heq ▸ shorter)
      · exact ih h

/-- The methods from a depth on, over the types there; a type is looked at once, while it is
`fresh`. -/
def methodsFrom (p : Program) (depth : Nat) (fresh : List String) (hidden : Names)
    (set : MethodSet) (types : List Embedded) : Except StubError MethodSet :=
  match hl : p.levelOf depth fresh types with
  | .error e => .error e
  | .ok (level, left) =>
    let set := level.addTo hidden set
    if hn : level.next = [] then .ok set
    else p.methodsFrom (depth + 1) left (level.hide hidden) set level.next
termination_by fresh.length
decreasing_by
  rcases levelOf_fresh hl with h | ⟨-, h⟩
  · exact h
  · exact absurd h hn

/-- The methods of a declared type.  An alias that leads nowhere has none. -/
def methodSet (p : Program) (decl : Declared) : Except StubError MethodSet :=
  match p.followAlias? decl with
  | none => .ok .empty
  | some root => p.methodsFrom 0 p.typeNames [] .empty [.declared root]

end Program

end Stubwright
