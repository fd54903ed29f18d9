import Stubwright.Proofs.Provenance

/-!
# The selector rule and the search for methods

A selector `x.m` stands for the occurrence of `m` at the least depth of embedded fields, if it is
the only one there.  Method sets are searched depth by depth, and a type is looked at only once.

* `get?_methodsFrom_of_start`: a search adds what the rule selects among the types it looks at.
-/

namespace Stubwright

open List

namespace Program

variable {p : Program} {set : MethodSet} {name : String} {entry : MethodEntry} {hidden : Names}
  {depth : Nat} {types : List Embedded} {decl : Declared} {fresh : List String} {level : Level}

/-! ## The rule -/

/-- The methods that a type has itself, as entries of a depth. -/
def methodsIn (p : Program) (depth : Nat) : Embedded → List (String × MethodEntry)
  | .declared decl => (p.declaredMethods depth decl).toOption.getD []
  | .error scope => [("Error", ⟨scope, errorSignature, depth⟩)]

/-- The names of the fields of a type. -/
def fieldsIn (p : Program) : Embedded → List String
  | .declared decl => (p.structLevel decl).fields
  | .error _ => []

/-- The types of the embedded fields of a type. -/
def embeddedIn (p : Program) : Embedded → List Embedded
  | .declared decl => (p.structLevel decl).next
  | .error _ => []

/-- The types that paths of `depth` embedded fields lead to from a declared type, one for each
path. -/
def reached (p : Program) (decl : Declared) : (depth : Nat) → List Embedded
  | 0 => [.declared decl]
  | depth + 1 => (p.reached decl depth).flatMap p.embeddedIn

/-- The occurrences of a name in a type: a method by its entry, a field by none. -/
def occurrencesIn (p : Program) (depth : Nat) (name : String) (t : Embedded) :
    List (Option MethodEntry) :=
  ((p.methodsIn depth t).filter (·.1 == name)).map (fun m => some m.2) ++
    ((p.fieldsIn t).filter (· == name)).map fun _ => none

def occurrencesAmong (p : Program) (depth : Nat) (name : String) (types : List Embedded) :
    List (Option MethodEntry) :=
  types.flatMap (p.occurrencesIn depth name)

/-- The occurrences of a name at a depth below a declared type, one for each path. -/
def occurrences (p : Program) (decl : Declared) (depth : Nat) (name : String) :
    List (Option MethodEntry) :=
  p.occurrencesAmong depth name (p.reached decl depth)

/-- The rule: at the least depth at which the name occurs there is one occurrence, which is the
method. -/
def Selects (p : Program) (decl : Declared) (name : String) (entry : MethodEntry) : Prop :=
  ∃ depth, (∀ d < depth, p.occurrences decl d name = []) ∧
    p.occurrences decl depth name = [some entry] ∧ entry.depth = depth

/-- No type is reached by two paths of its least length. -/
def SinglePaths (p : Program) (decl : Declared) : Prop :=
  ∀ depth decl', (∀ d < depth, .declared decl' ∉ p.reached decl d) →
    (p.reached decl depth).count (.declared decl') ≤ 1

/-- The methods of a declared type can be listed. -/
def ListsMethods (p : Program) (decl : Declared) : Prop :=
  ∃ methods, p.declaredMethods 0 decl = .ok methods

/-! ## What one depth adds -/

/-- A method that is put into a set is found there, and the others are found as before. -/
theorem get?_insert (h : ∀ e, set.get? name = some e → e = entry) (x : String) :
    (set.insert name entry).get? x = if x = name then some entry else set.get? x := by
  have hcons : ∀ (x n : String) (e : MethodEntry) (entries : List (String × MethodEntry)),
      ((n, e) :: entries).lookup x = if x = n then some e else entries.lookup x := by
    intro x n e entries
    rw [lookup_cons]
    by_cases hx : x = n
    · simp [hx]
    · rw [beq_eq_false_iff_ne.2 hx, if_neg hx]
  obtain ⟨entries⟩ := set
  simp only [MethodSet.get?, MethodSet.insert] at h ⊢
  split
  · rename_i hx
    subst hx
    induction entries with
    | nil => simp [MethodSet.insertEntry]
    | cons first entries ih =>
      obtain ⟨n, e⟩ := first
      rw [hcons] at h
      rw [MethodSet.insertEntry]
      split
      · simp
      · rw [hcons]
        split
        · rename_i hn
          exact congrArg some (h e (if_pos hn))
        · rename_i hn
          exact ih fun e' he' => h e' ((if_neg hn).trans he')
  · rename_i hx
    clear h
    induction entries with
    | nil => rw [MethodSet.insertEntry, hcons, if_neg hx]
    | cons first entries ih =>
      obtain ⟨n, e⟩ := first
      rw [MethodSet.insertEntry]
      split
      · rw [hcons, if_neg hx]
      · rw [hcons, hcons, ih]

def addName (level : Level) (hidden : Names) (set : MethodSet) (name : String) : MethodSet :=
  if name ∈ hidden then set else ((level.unique? name).map (set.insert name)).getD set

theorem addTo_eq (level : Level) (hidden : Names) (set : MethodSet) :
    level.addTo hidden set
      = (Names.ofList (level.methods.map (·.1))).foldl (addName level hidden) set := by
  unfold Level.addTo
  congr 1
  funext set name
  simp only [addName, contains_iff_mem]
  cases level.unique? name <;> rfl

theorem get?_addName
    (h : name ∉ hidden → ∀ e, set.get? name = some e → level.unique? name = some e) (x : String)
    (entry : MethodEntry) :
    (addName level hidden set name).get? x = some entry ↔
      set.get? x = some entry ∨ x = name ∧ name ∉ hidden ∧ level.unique? name = some entry := by
  unfold addName
  by_cases hname : name ∈ hidden
  · simp [hname]
  · rw [if_neg hname]
    cases hunique : level.unique? name with
    | none => simp
    | some e =>
      have hsame : ∀ e', set.get? name = some e' → e' = e := by
        intro e' he'
        have := h hname e' he'
        rw [hunique] at this
        exact (Option.some.inj this).symm
      rw [Option.map_some, Option.getD_some, get?_insert hsame]
      by_cases hx : x = name
      · subst hx
        simp only [if_pos, hname, not_false_eq_true, true_and]
        constructor
        · exact .inr
        · rintro (hset | heq)
          · rw [hsame _ hset]
          · exact heq
      · simp [hx]

theorem get?_addTo (hset : ∀ name e, set.get? name = some e → name ∈ hidden)
    (x : String) (entry : MethodEntry) :
    (level.addTo hidden set).get? x = some entry ↔
      set.get? x = some entry ∨ x ∉ hidden ∧ level.unique? x = some entry := by
  -- a set on the way holds hidden methods and methods of the level
  have hfold : ∀ (names : List String) (s : MethodSet),
      (∀ x ∉ hidden, ∀ e, s.get? x = some e → level.unique? x = some e) →
      ((names.foldl (addName level hidden) s).get? x = some entry ↔
        s.get? x = some entry ∨ x ∈ names ∧ x ∉ hidden ∧ level.unique? x = some entry) := by
    intro names
    induction names with
    | nil => simp
    | cons name names ih =>
      intro s hs
      rw [foldl_cons, ih, get?_addName (hs name)]
      · constructor
        · rintro ((h | ⟨rfl, h⟩) | ⟨hmem, h⟩)
          · exact .inl h
          · exact .inr ⟨mem_cons_self, h⟩
          · exact .inr ⟨mem_cons_of_mem _ hmem, h⟩
        · rintro (h | ⟨hmem, h⟩)
          · exact .inl (.inl h)
          · rcases mem_cons.1 hmem with rfl | hmem
            · exact .inl (.inr ⟨rfl, h⟩)
            · exact .inr ⟨hmem, h⟩
      · intro y hy e he
        rcases (get?_addName (hs name) y e).1 he with h | ⟨rfl, -, h⟩
        · exact hs y hy e h
        · exact h
  rw [addTo_eq, hfold _ _ fun y hy e he => absurd (hset y e he) hy]
  refine or_congr_right (and_iff_right_of_imp ?_)
  rintro ⟨-, hunique⟩
  exact Names.mem_ofList.2 (mem_map_of_mem (mem_of_unique? hunique))

/-! ## Occurrences and levels -/

/-- What several types bring in at a depth. -/
def levelAmong (p : Program) (depth : Nat) (types : List Embedded) : Level :=
  ⟨types.flatMap (p.methodsIn depth), types.flatMap p.fieldsIn, types.flatMap p.embeddedIn⟩

theorem occurrencesAmong_perm (depth : Nat) (name : String) (types : List Embedded) :
    (p.occurrencesAmong depth name types).Perm
      (((p.levelAmong depth types).methods.filter (·.1 == name)).map (fun m => some m.2) ++
        ((p.levelAmong depth types).fields.filter (· == name)).map fun _ => none) := by
  have hsplit := flatMap_append_perm types
    (fun t => ((p.methodsIn depth t).filter (·.1 == name)).map fun m => some m.2)
    (fun t => ((p.fieldsIn t).filter (· == name)).map fun _ => (none : Option MethodEntry))
  refine hsplit.symm.trans (List.Perm.of_eq ?_)
  simp only [levelAmong, filter_flatMap, map_flatMap]

/-- A name occurs in several types if it is that of a method or a field of the level they make. -/
theorem occurrencesAmong_eq_nil_iff :
    p.occurrencesAmong depth name types = [] ↔
      name ∉ (p.levelAmong depth types).methods.map (·.1) ∧
        name ∉ (p.levelAmong depth types).fields := by
  have hperm := p.occurrencesAmong_perm depth name types
  rw [← perm_nil, hperm.congr_left, perm_nil, append_eq_nil_iff,
    map_eq_nil_iff, map_eq_nil_iff, filter_eq_nil_iff, filter_eq_nil_iff]
  refine and_congr ?_ ?_
  · simp only [mem_map, beq_iff_eq]
    exact ⟨fun h hm => hm.elim fun m hm => h m hm.1 hm.2, fun h m hm heq => h ⟨m, hm, heq⟩⟩
  · simp only [beq_iff_eq]
    exact ⟨fun h hm => h name hm rfl, fun h x hx heq => h (heq ▸ hx)⟩

/-- A method that is alone in a level is the only occurrence of its name there. -/
theorem unique?_levelAmong :
    (p.levelAmong depth types).unique? name = some entry ↔
      p.occurrencesAmong depth name types = [some entry] := by
  have hperm := p.occurrencesAmong_perm depth name types
  rw [← perm_singleton, hperm.congr_left, perm_singleton]
  generalize p.levelAmong depth types = level
  have hfields : level.fields.contains name = false ↔
      (level.fields.filter (· == name)).map (fun _ => (none : Option MethodEntry)) = [] := by
    rw [map_eq_nil_iff, filter_eq_nil_iff, ← Bool.not_eq_true, contains_iff_mem]
    simp only [beq_iff_eq]
    exact ⟨fun h x hx heq => h (heq ▸ hx), fun h hm => h name hm rfl⟩
  unfold Level.unique?
  split
  · rename_i n e heq
    rw [heq, map_singleton, singleton_append, List.cons.injEq, ← hfields]
    cases level.fields.contains name <;> simp
  · rename_i hne
    refine iff_of_false (by simp) fun h => ?_
    rcases append_eq_singleton_iff.1 h with ⟨-, h⟩ | ⟨h, -⟩
    · have hmem := h.symm ▸ mem_singleton_self (some entry)
      simp at hmem
    · obtain ⟨⟨n, e⟩, hm, -⟩ := map_eq_singleton_iff.1 h
      exact hne n e hm

/-- The names hidden below a level are those that occur in it and those hidden above. -/
theorem mem_hide_levelAmong :
    name ∈ (p.levelAmong depth types).hide hidden ↔
      p.occurrencesAmong depth name types ≠ [] ∨ name ∈ hidden := by
  have hunion : ∀ a b : Names, name ∈ Names.union a b ↔ name ∈ a ∨ name ∈ b := by
    intro a b
    induction a with
    | nil => simp [Names.union]
    | cons n a ih =>
      change name ∈ Names.insert n (Names.union a b) ↔ _
      rw [Names.mem_insert, ih, mem_cons, or_assoc]
  rw [Level.hide, hunion, Names.mem_ofList, mem_append, ne_eq, occurrencesAmong_eq_nil_iff,
    not_and_or, not_not, not_not]

/-! ## The search -/

/-- The types that are looked at among those embedded at a depth: the ones still to be looked at,
each once, and every `error`. -/
def looked (fresh : List String) : List Embedded → List Embedded
  | [] => []
  | .error scope :: rest => .error scope :: looked fresh rest
  | .declared decl :: rest =>
    if decl.qualifiedName ∈ fresh then
      .declared decl :: looked (Names.without decl.qualifiedName fresh) rest
    else looked fresh rest

/-- The names of the types that are still to be looked at behind a depth. -/
def left (fresh : List String) : List Embedded → List String
  | [] => fresh
  | .error _ :: rest => left fresh rest
  | .declared decl :: rest =>
    if decl.qualifiedName ∈ fresh then left (Names.without decl.qualifiedName fresh) rest
    else left fresh rest

/-- The types looked at by a search that starts with the given ones, so many depths on. -/
def searched (p : Program) : (fresh : List String) → List Embedded → (depth : Nat) → List Embedded
  | fresh, types, 0 => looked fresh types
  | fresh, types, depth + 1 =>
    p.searched (left fresh types) ((looked fresh types).flatMap p.embeddedIn) depth

theorem methods_structLevel (p : Program) (decl : Declared) : (p.structLevel decl).methods = [] := by
  unfold structLevel
  split
  · rename_i scope fields heq
    clear heq
    induction fields with
    | nil => rfl
    | cons field fields ih =>
      rw [map_cons, foldr_cons, Level.append, ih, append_nil, fieldLevel]
      split <;> rfl
  · rfl

theorem ListsMethods.declaredMethods_eq (h : p.ListsMethods decl) (depth : Nat) :
    p.declaredMethods depth decl = .ok (p.methodsIn depth (.declared decl)) := by
  obtain ⟨methods, hmethods⟩ := h
  unfold declaredMethods at hmethods
  unfold methodsIn declaredMethods
  split at hmethods
  · rename_i hinterface
    split at hmethods
    · cases hmethods
    · rename_i expansion hexpand
      simp only [hinterface, hexpand, if_true]
      rfl
  · rename_i hinterface
    simp only [hinterface]
    rfl

/-- A type whose methods cannot be listed is an interface and has no fields. -/
theorem structLevel_of_error {e : StubError} (h : p.declaredMethods depth decl = .error e) :
    p.structLevel decl = .empty := by
  have hinterface : p.isInterface decl = true := by
    by_contra hnot
    rw [declaredMethods, if_neg hnot] at h
    cases h
  unfold structLevel
  split
  · rename_i scope fields heq
    rw [isInterface, heq] at hinterface
    cases hinterface
  · rfl

/-- Below the first depth, a type brings in its methods as far as they can be listed, and its
fields. -/
theorem declaredLevel_eq (h : depth = 0 → p.ListsMethods decl) :
    p.declaredLevel depth decl
      = .ok (Level.append ⟨p.methodsIn depth (.declared decl), [], []⟩ (p.structLevel decl)) := by
  cases hmethods : p.declaredMethods depth decl with
  | ok methods => simp [declaredLevel, hmethods, methodsIn, Except.toOption]
  | error e =>
    by_cases hdepth : depth = 0
    · rw [(h hdepth).declaredMethods_eq] at hmethods
      cases hmethods
    · simp [declaredLevel, hmethods, hdepth, methodsIn, Except.toOption, Level.append, Level.empty,
        structLevel_of_error hmethods]

/-- What a search finds at one depth is what the types it looks at bring in. -/
theorem levelOf_eq
    (hlists : depth = 0 → ∀ decl, .declared decl ∈ looked fresh types → p.ListsMethods decl) :
    p.levelOf depth fresh types
      = .ok (p.levelAmong depth (looked fresh types), left fresh types) := by
  induction types generalizing fresh with
  | nil => rfl
  | cons t rest ih =>
    cases t with
    | error scope =>
      rw [looked] at hlists
      rw [levelOf, ih fun hdepth decl h => hlists hdepth decl (mem_cons_of_mem _ h), looked, left]
      rfl
    | declared decl =>
      rw [looked] at hlists
      rw [levelOf, looked, left]
      by_cases hmem : decl.qualifiedName ∈ fresh
      · rw [if_pos hmem] at hlists
        rw [if_pos (contains_iff_mem.2 hmem), if_pos hmem, if_pos hmem,
          declaredLevel_eq fun hdepth => hlists hdepth decl mem_cons_self,
          ih fun hdepth decl h => hlists hdepth decl (mem_cons_of_mem _ h)]
        simp [Level.append, levelAmong, methods_structLevel, fieldsIn, embeddedIn]
      · rw [if_neg hmem] at hlists
        rw [if_neg (by rwa [contains_iff_mem]), if_neg hmem, if_neg hmem, ih hlists]

/-- The rule over the types of each depth from some depth on. -/
def SelectsFrom (p : Program) (start : Nat) (types : Nat → List Embedded) (name : String)
    (entry : MethodEntry) : Prop :=
  ∃ i, (∀ j < i, p.occurrencesAmong (start + j) name (types j) = []) ∧
    p.occurrencesAmong (start + i) name (types i) = [some entry]

/-- The rule selects at the first depth, or below it if the name does not occur there. -/
theorem selectsFrom_iff {start : Nat} {types : Nat → List Embedded} :
    p.SelectsFrom start types name entry ↔
      p.occurrencesAmong start name (types 0) = [some entry] ∨
        p.occurrencesAmong start name (types 0) = [] ∧
          p.SelectsFrom (start + 1) (fun i => types (i + 1)) name entry := by
  constructor
  · rintro ⟨i, hbefore, hat⟩
    cases i with
    | zero => exact .inl hat
    | succ i =>
      refine .inr ⟨hbefore 0 (Nat.succ_pos i), i, fun j hj => ?_, ?_⟩
      · rw [Nat.add_right_comm, Nat.add_assoc]
        exact hbefore (j + 1) (Nat.succ_lt_succ hj)
      · rw [Nat.add_right_comm, Nat.add_assoc]
        exact hat
  · rintro (hat | ⟨hnil, i, hbefore, hat⟩)
    · exact ⟨0, fun j hj => absurd hj (Nat.not_lt_zero j), hat⟩
    · refine ⟨i + 1, fun j hj => ?_, ?_⟩
      · cases j with
        | zero => exact hnil
        | succ j =>
          rw [← Nat.add_assoc, ← Nat.add_right_comm]
          exact hbefore j (Nat.lt_of_succ_lt_succ hj)
      · rw [← Nat.add_assoc, ← Nat.add_right_comm]
        exact hat

theorem searched_nil (p : Program) (fresh : List String) (depth : Nat) :
    p.searched fresh [] depth = [] := by
  induction depth generalizing fresh with
  | zero => rfl
  | succ depth ih => exact ih fresh

/-- A search adds the methods that the rule selects among the types it looks at, if it does not fail
at the very first of them. -/
theorem get?_methodsFrom_of_start (depth : Nat)
    (hlists : depth = 0 → ∀ decl, .declared decl ∈ looked fresh types → p.ListsMethods decl)
    (hset : ∀ name e, set.get? name = some e → name ∈ hidden) :
    ∃ result, p.methodsFrom depth fresh hidden set types = .ok result ∧
      ∀ name entry, result.get? name = some entry ↔ set.get? name = some entry ∨
        name ∉ hidden ∧ p.SelectsFrom depth (p.searched fresh types) name entry := by
  fun_induction methodsFrom p depth fresh hidden set types with
  | case1 depth fresh hidden set types e hlevel =>
    rw [levelOf_eq hlists] at hlevel
    cases hlevel
  | case2 depth fresh hidden set types level rest hlevel set' hnext =>
    rw [levelOf_eq hlists] at hlevel
    cases hlevel
    refine ⟨set', rfl, fun name entry => ?_⟩
    -- below the last depth there is nothing
    have hbelow : ¬ p.SelectsFrom (depth + 1) (fun i => p.searched fresh types (i + 1)) name entry := by
      rintro ⟨i, -, hat⟩
      have hnone : p.searched fresh types (i + 1) = [] := by
        change p.searched (left fresh types) ((looked fresh types).flatMap p.embeddedIn) i = []
        rw [show (looked fresh types).flatMap p.embeddedIn = [] from hnext, searched_nil]
      simp only [hnone] at hat
      cases hat
    rw [get?_addTo hset, unique?_levelAmong, selectsFrom_iff]
    simp only [hbelow, and_false, or_false]
    rfl
  | case3 depth fresh hidden set types level rest hlevel set' hnext ih =>
    rw [levelOf_eq hlists] at hlevel
    cases hlevel
    have hhidden : ∀ name e, set'.get? name = some e →
        name ∈ (p.levelAmong depth (looked fresh types)).hide hidden := by
      intro name e he
      rw [mem_hide_levelAmong]
      rcases (get?_addTo hset name e).1 he with h | ⟨-, h⟩
      · exact .inr (hset name e h)
      · rw [unique?_levelAmong] at h
        exact .inl (by simp [h])
    obtain ⟨result, hrun, hget⟩ := ih (fun hdepth => absurd hdepth (Nat.succ_ne_zero depth)) hhidden
    refine ⟨result, hrun, fun name entry => ?_⟩
    have hsplit : p.SelectsFrom depth (p.searched fresh types) name entry ↔
        p.occurrencesAmong depth name (looked fresh types) = [some entry] ∨
          p.occurrencesAmong depth name (looked fresh types) = [] ∧
            p.SelectsFrom (depth + 1) (p.searched (left fresh types)
              (p.levelAmong depth (looked fresh types)).next) name entry := selectsFrom_iff
    rw [hget, get?_addTo hset, unique?_levelAmong, mem_hide_levelAmong, hsplit, not_or, not_not]
    tauto

/-- A search adds the methods that the rule selects among the types it looks at. -/
theorem get?_methodsFrom (depth : Nat)
    (hlists : ∀ i decl, .declared decl ∈ p.searched fresh types i → p.ListsMethods decl)
    (hset : ∀ name e, set.get? name = some e → name ∈ hidden) :
    ∃ result, p.methodsFrom depth fresh hidden set types = .ok result ∧
      ∀ name entry, result.get? name = some entry ↔ set.get? name = some entry ∨
        name ∉ hidden ∧ p.SelectsFrom depth (p.searched fresh types) name entry :=
  get?_methodsFrom_of_start depth (fun _ => hlists 0) hset

end Program

end Stubwright
