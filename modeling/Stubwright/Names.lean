/-!
# Finite sets of names

A finite set of names is its increasing list.  Two such lists with the same members are equal, so
sets built in different orders can be compared as they are.
-/

namespace Stubwright

abbrev Names := List String

namespace Names

def insert (name : String) : Names → Names
  | [] => [name]
  | n :: ns =>
    if name < n then name :: n :: ns
    else if name = n then n :: ns
    else n :: insert name ns

/-- The set of the members of a list. -/
def ofList (names : List String) : Names :=
  names.foldr insert []

/-- The members of two sets together. -/
def union (a b : Names) : Names :=
  a.foldr insert b

def without (name : String) (names : List String) : List String :=
  names.filter (· != name)

theorem length_without_lt {name : String} {names : List String} (h : name ∈ names) :
    (without name names).length < names.length :=
  List.length_filter_lt_length_iff_exists.2 ⟨name, h, by simp⟩

@[simp] theorem mem_insert {name x : String} {ns : Names} :
    x ∈ insert name ns ↔ x = name ∨ x ∈ ns := by
  induction ns with
  | nil => simp [insert]
  | cons n ns ih =>
    simp only [insert]
    split
    · simp
    · split
      · rename_i h; subst h; simp
      · simp only [List.mem_cons, ih]
        constructor
        · rintro (h | h | h) <;> simp [h]
        · rintro (h | h | h) <;> simp [h]

@[simp] theorem mem_ofList {x : String} {names : List String} :
    x ∈ ofList names ↔ x ∈ names := by
  induction names with
  | nil => simp [ofList]
  | cons n ns ih =>
    change x ∈ insert n (ofList ns) ↔ _
    simp [ih]

end Names

end Stubwright
