import Stubwright.Proofs.NormalText
import Stubwright.Proofs.Requalify
import Stubwright.Proofs.Selector.Search

/-!
# Method sets and the selector rule

The types that a search for methods looks at, compared with the types that paths of embedded fields
lead to.

* `get?_methodSet_iff`: the method set holds what the rule selects, unless a type is reached twice.
* `methodSet_diamond`: where one is, it holds more.
-/

namespace Stubwright

open List

namespace Program

variable {p : Program} {t : Embedded} {depth : Nat} {name : String} {decl : Declared}
  {source : PackageSource} {roots : List String} {fresh : List String} {entry : MethodEntry}
  {pkg : Package}

/-! ## The search and the paths -/

/-- A list is another one without some members that satisfy a property. -/
inductive Without (old : Embedded → Prop) : List Embedded → List Embedded → Prop
  /-- Nothing. -/
  | nil : Without old [] []
  /-- A member of both. -/
  | keep (t : Embedded) {xs ys : List Embedded} : Without old xs ys → Without old (t :: xs) (t :: ys)
  /-- A member that is left out. -/
  | skip {t : Embedded} {xs ys : List Embedded} :
      old t → Without old xs ys → Without old xs (t :: ys)

namespace Without

variable {old old' : Embedded → Prop} {xs xs' ys ys' : List Embedded}

theorem refl (xs : List Embedded) : Without old xs xs := by
  induction xs with
  | nil => exact .nil
  | cons t xs ih => exact .keep t ih

theorem sublist (h : Without old xs ys) : xs.Sublist ys := by
  induction h with
  | nil => exact .slnil
  | keep t _ ih => exact ih.cons_cons t
  | skip _ _ ih => exact ih.cons _

theorem append (h : Without old xs ys) (h' : Without old xs' ys') :
    Without old (xs ++ xs') (ys ++ ys') := by
  induction h with
  | nil => exact h'
  | keep t _ ih => exact ih.keep t
  | skip hold _ ih => exact ih.skip hold

theorem nil_of_forall (h : ∀ t ∈ ys, old t) : Without old [] ys := by
  induction ys with
  | nil => exact .nil
  | cons t ys ih =>
    obtain ⟨ht, hys⟩ := forall_mem_cons.1 h
    exact (ih hys).skip ht

/-- A member of the longer list is one of the shorter list or an old one. -/
theorem mem_or (h : Without old xs ys) (ht : t ∈ ys) : t ∈ xs ∨ old t := by
  induction h with
  | nil => exact .inl ht
  | keep u _ ih =>
    rcases mem_cons.1 ht with rfl | ht
    · exact .inl mem_cons_self
    · exact (ih ht).imp_left (mem_cons_of_mem _)
  | skip hold _ ih =>
    rcases mem_cons.1 ht with rfl | ht
    · exact .inr hold
    · exact ih ht

/-- Lists made from each member stay as close as the members that are left out make old ones. -/
theorem flatMap (h : Without old xs ys) {f : Embedded → List Embedded}
    (hf : ∀ t, old t → ∀ u ∈ f t, old' u) : Without old' (xs.flatMap f) (ys.flatMap f) := by
  induction h with
  | nil => exact .nil
  | keep t _ ih => exact (refl (f t)).append ih
  | skip hold _ ih => exact (nil_of_forall (hf _ hold)).append ih

/-- Left out members in which a name does not occur bring no occurrence. -/
theorem occurrencesAmong_eq (h : Without old xs ys)
    (hold : ∀ t, old t → p.occurrencesIn depth name t = []) :
    p.occurrencesAmong depth name xs = p.occurrencesAmong depth name ys := by
  induction h with
  | nil => rfl
  | keep t _ ih => exact congrArg (p.occurrencesIn depth name t ++ ·) ih
  | skip ht _ ih =>
    rw [ih]
    simp [occurrencesAmong, hold _ ht]

end Without

/-- A type was reached at a smaller depth. -/
def Earlier (p : Program) (decl : Declared) (depth : Nat) (t : Embedded) : Prop :=
  ∃ d < depth, t ∈ p.reached decl d

theorem occurrencesIn_eq_nil {depth' : Nat} (h : p.occurrencesIn depth name t = []) :
    p.occurrencesIn depth' name t = [] := by
  have hnames : ∀ d, (p.methodsIn d t).map (·.1) = (p.methodsIn depth t).map (·.1) := by
    intro d
    cases t with
    | error scope => rfl
    | declared decl =>
      simp only [methodsIn, declaredMethods]
      split
      · rcases p.expand decl [] with e | expansion
        · rfl
        · simp only [Except.toOption, Option.getD_some, map_flatMap, map_map]
          rfl
      · simp [Except.toOption]
  have hnil : ∀ d, p.occurrencesIn d name t = [] ↔
      name ∉ (p.methodsIn d t).map (·.1) ∧ name ∉ p.fieldsIn t := by
    intro d
    have hone : p.occurrencesAmong d name [t] = [] ↔ _ := occurrencesAmong_eq_nil_iff
    simpa [occurrencesAmong, levelAmong] using hone
  rw [hnil, hnames]
  exact (hnil depth).1 h

theorem mem_left {types : List Embedded} :
    name ∈ left fresh types ↔
      name ∈ fresh ∧ ∀ decl, .declared decl ∈ types → decl.qualifiedName ≠ name := by
  induction types generalizing fresh with
  | nil => simp [left]
  | cons t rest ih =>
    cases t with
    | error scope => simp [left, ih]
    | declared decl =>
      rw [left]
      split
      · rw [ih, Names.without, mem_filter]
        simp only [bne_iff_ne, ne_eq, mem_cons, Embedded.declared.injEq, forall_eq_or_imp]
        tauto
      · rename_i hmem
        rw [ih]
        simp only [ne_eq, mem_cons, Embedded.declared.injEq, forall_eq_or_imp]
        refine ⟨fun h => ⟨h.1, ?_, h.2⟩, fun h => ⟨h.1, h.2.2⟩⟩
        rintro rfl
        exact hmem h.1

/-- Of types that are not old and stand only once, a search looks at all that are still to be
looked at. -/
theorem Without.looked {old : Embedded → Prop} {xs ys : List Embedded}
    (h : Without old xs ys)
    (hfresh : ∀ decl, .declared decl ∈ xs → decl.qualifiedName ∉ fresh → old (.declared decl))
    (hcount : ∀ decl, ¬ old (.declared decl) → xs.count (.declared decl) ≤ 1)
    (hname : ∀ a b : Declared, .declared a ∈ xs → .declared b ∈ xs →
      a.qualifiedName = b.qualifiedName → a = b) : Without old (Program.looked fresh xs) ys := by
  induction h generalizing fresh with
  | nil => exact .nil
  | skip hold _ ih => exact (ih hfresh hcount hname).skip hold
  | @keep t xs ys hrest ih =>
    have hcount' : ∀ decl, ¬ old (.declared decl) → xs.count (.declared decl) ≤ 1 := by
      intro decl hold
      exact (count_le_count_cons ..).trans (hcount decl hold)
    have hname' : ∀ a b : Declared, .declared a ∈ xs → .declared b ∈ xs →
        a.qualifiedName = b.qualifiedName → a = b := by
      intro a b ha hb
      exact hname a b (mem_cons_of_mem _ ha) (mem_cons_of_mem _ hb)
    cases t with
    | error scope =>
      rw [Program.looked]
      exact (ih (fun decl h => hfresh decl (mem_cons_of_mem _ h)) hcount' hname').keep _
    | declared decl =>
      rw [Program.looked]
      split
      · refine (ih (fun decl' h hnot => ?_) hcount' hname').keep _
        by_cases heq : decl'.qualifiedName = decl.qualifiedName
        · -- the type stands a second time
          obtain rfl := hname decl' decl (mem_cons_of_mem _ h) mem_cons_self heq
          by_contra hold
          have hone := hcount decl' hold
          rw [count_cons_self] at hone
          have := count_pos_iff.2 h
          omega
        · refine hfresh decl' (mem_cons_of_mem _ h) fun hmem => hnot ?_
          rw [Names.without, mem_filter]
          exact ⟨hmem, by simpa using heq⟩
      · rename_i hmem
        exact (ih (fun decl' h => hfresh decl' (mem_cons_of_mem _ h)) hcount' hname').skip
          (hfresh decl mem_cons_self hmem)

/-- A search has come to a depth: it is about to look at the types that paths lead to there, without
some that were reached earlier, and what was not reached earlier is still to be looked at. -/
structure ComesTo (p : Program) (decl : Declared) (depth : Nat) (fresh : List String)
    (types : List Embedded) : Prop where
  types : Without (p.Earlier decl depth) types (p.reached decl depth)
  fresh : ∀ name, name ∈ fresh ↔ name ∈ p.typeNames ∧
    ∀ d < depth, ∀ a, .declared a ∈ p.reached decl d → a.qualifiedName ≠ name

/-- The types reached from a declared type are types of the program, and no two share a name. -/
structure Distinguishes (p : Program) (decl : Declared) : Prop where
  known : ∀ d a, .declared a ∈ p.reached decl d → a.qualifiedName ∈ p.typeNames
  eq_of_name : ∀ d d' a b, .declared a ∈ p.reached decl d → .declared b ∈ p.reached decl d' →
    a.qualifiedName = b.qualifiedName → a = b

namespace ComesTo

variable {decl : Declared} {depth : Nat} {fresh : List String} {types : List Embedded}

/-- What the search looks at are the types that paths lead to, without some that were reached
earlier. -/
theorem looked (h : p.ComesTo decl depth fresh types) (hsingle : p.SinglePaths decl)
    (hdist : p.Distinguishes decl) :
    Without (p.Earlier decl depth) (looked fresh types) (p.reached decl depth) := by
  have hmem : ∀ a, .declared a ∈ types → .declared a ∈ p.reached decl depth :=
    fun a ha => h.types.sublist.subset ha
  refine h.types.looked ?_ ?_ ?_
  · intro a ha hnot
    rw [h.fresh] at hnot
    push Not at hnot
    obtain ⟨d, hd, b, hb, heq⟩ := hnot (hdist.known depth a (hmem a ha))
    rw [hdist.eq_of_name depth d a b (hmem a ha) hb heq.symm]
    exact ⟨d, hd, hb⟩
  · intro a hold
    have hone := hsingle depth a fun d hd ha => hold ⟨d, hd, ha⟩
    exact (h.types.sublist.count_le _).trans hone
  · intro a b ha hb
    exact hdist.eq_of_name depth depth a b (hmem a ha) (hmem b hb)

/-- The search goes on to the next depth. -/
theorem next (h : p.ComesTo decl depth fresh types) (hsingle : p.SinglePaths decl)
    (hdist : p.Distinguishes decl) :
    p.ComesTo decl (depth + 1) (left fresh types)
      ((Program.looked fresh types).flatMap p.embeddedIn) := by
  constructor
  · refine (h.looked hsingle hdist).flatMap ?_
    rintro t ⟨d, hd, ht⟩ u hu
    exact ⟨d + 1, Nat.succ_lt_succ hd, mem_flatMap_of_mem ht hu⟩
  · intro name
    rw [mem_left, h.fresh, and_assoc]
    refine and_congr_right fun _ => ⟨?_, ?_⟩
    · rintro ⟨hearlier, htypes⟩ d hd a ha
      rcases Nat.lt_succ_iff_lt_or_eq.1 hd with hd | rfl
      · exact hearlier d hd a ha
      · rcases h.types.mem_or ha with ha | ⟨d', hd', ha⟩
        · exact htypes a ha
        · exact hearlier d' hd' a ha
    · intro hall
      refine ⟨fun d hd => hall d (Nat.lt_succ_of_lt hd), fun a ha => ?_⟩
      exact hall depth (Nat.lt_succ_self depth) a (h.types.sublist.subset ha)

/-- From there on the search looks at the types that paths lead to, without some that were reached
earlier. -/
theorem searched (h : p.ComesTo decl depth fresh types) (hsingle : p.SinglePaths decl)
    (hdist : p.Distinguishes decl) (i : Nat) :
    Without (p.Earlier decl (depth + i)) (p.searched fresh types i)
      (p.reached decl (depth + i)) := by
  induction i generalizing depth fresh types with
  | zero => exact h.looked hsingle hdist
  | succ i ih =>
    rw [← Nat.add_assoc, Nat.add_right_comm]
    exact ih (h.next hsingle hdist)

end ComesTo

/-- The rule selects the same over all paths as over the types that the search looks at. -/
theorem selectsFrom_searched_iff {types : Nat → List Embedded}
    (htypes : ∀ d, Without (p.Earlier decl d) (types d) (p.reached decl d)) :
    p.SelectsFrom 0 types name entry ↔
      ∃ depth, (∀ d < depth, p.occurrences decl d name = []) ∧
        p.occurrences decl depth name = [some entry] := by
  -- at the least depth of a name, the types that are left out do not have it
  have hsame : ∀ d, (∀ d' < d, p.occurrences decl d' name = []) →
      p.occurrencesAmong d name (types d) = p.occurrences decl d name := by
    intro d hnone
    refine (htypes d).occurrencesAmong_eq ?_
    rintro t ⟨d', hd', ht⟩
    exact occurrencesIn_eq_nil (flatMap_eq_nil_iff.1 (hnone d' hd') t ht)
  have hnone : ∀ depth, (∀ d < depth, p.occurrencesAmong d name (types d) = []) ↔
      ∀ d < depth, p.occurrences decl d name = [] := by
    intro depth
    constructor
    · intro h d hd
      induction d using Nat.strongRecOn with
      | _ d ih =>
        rw [← hsame d fun d' hd' => ih d' hd' (hd'.trans hd)]
        exact h d hd
    · intro h d hd
      rw [hsame d fun d' hd' => h d' (hd'.trans hd)]
      exact h d hd
  simp only [SelectsFrom, Nat.zero_add, hnone]
  exact exists_congr fun depth => and_congr_right fun h => by rw [hsame depth h]

/-! ## Types and their names -/

/-- A declared type is the one found under its name. -/
def IsFirst (decl : Declared) : Prop :=
  decl.package.lookup? decl.name = some decl

theorem isFirst_of_lookup? (h : pkg.lookup? name = some decl) : IsFirst decl := by
  rw [IsFirst, Package.package_of_lookup? h, Package.name_of_lookup? h]
  exact h

theorem isFirst_of_resolveType? {scope : Scope} {t : TypeExpr}
    (h : p.resolveType? scope t = some decl) : IsFirst decl := by
  induction t using TypeExpr.partsInduction with
  | name name =>
    rw [resolveType?] at h
    split at h
    · rename_i hname
      cases h
      unfold resolveName at hname
      split at hname
      · rename_i hlookup
        cases hname
        exact isFirst_of_lookup? hlookup
      · split at hname
        · rename_i hfind
          cases hname
          obtain ⟨path, -, hpath⟩ := exists_of_findSome?_eq_some hfind
          obtain ⟨pkg, -, hlookup⟩ := Option.bind_eq_some_iff.1 hpath
          exact isFirst_of_lookup? hlookup
        · split at hname <;> cases hname
    · cases h
  | qualified package name =>
    obtain ⟨pkg, -, hlookup⟩ := Option.bind_eq_some_iff.1 h
    exact isFirst_of_lookup? hlookup
  | generic base args ihbase _ => exact ihbase h
  | pointer elem ih => exact ih h
  | paren elem ih => exact ih h
  | _ => cases h

theorem isFirst_of_followAliasWithin {hops : Nat} {root : Declared} (hdecl : IsFirst decl)
    (h : p.followAliasWithin hops decl = some root) : IsFirst root := by
  induction hops generalizing decl with
  | zero => cases h
  | succ hops ih =>
    rw [followAliasWithin] at h
    split at h
    · obtain ⟨next, hnext, h⟩ := Option.bind_eq_some_iff.1 h
      exact ih (isFirst_of_resolveType? hnext) h
    · cases h
      exact hdecl

/-- An embedded type is what the type of some field stands for. -/
theorem exists_of_mem_embeddedIn {e : Embedded} (h : e ∈ p.embeddedIn t) :
    ∃ scope type, p.embeddedType? scope type = some e := by
  cases t with
  | error scope => cases h
  | declared decl =>
    simp only [embeddedIn, structLevel] at h
    split at h
    · rename_i scope fields heq
      clear heq
      induction fields with
      | nil => cases h
      | cons field fields ih =>
        rcases mem_append.1 h with h | h
        · unfold fieldLevel at h
          split at h
          · exact ⟨scope, field.type, Option.mem_toList.1 h⟩
          · cases h
        · exact ih h
    · cases h

/-- The types reached from a type that is found under its name are found under theirs. -/
theorem isFirst_of_mem_reached (hdecl : IsFirst decl) {a : Declared}
    (h : .declared a ∈ p.reached decl depth) : IsFirst a := by
  cases depth with
  | zero =>
    rw [reached, mem_singleton] at h
    cases h
    exact hdecl
  | succ depth =>
    obtain ⟨t, -, h⟩ := mem_flatMap.1 h
    obtain ⟨scope, type, h⟩ := exists_of_mem_embeddedIn h
    unfold embeddedType? at h
    split at h
    · rename_i b hb
      obtain ⟨root, hroot, heq⟩ := Option.map_eq_some_iff.1 h
      cases heq
      exact isFirst_of_followAliasWithin (isFirst_of_resolveType? hb) hroot
    · split at h
      · split at h <;> cases h
      · cases h

theorem isEmbedded_of_mem_reached (hdecl : decl ∈ p.typeDecls) (h : t ∈ p.reached decl depth) :
    p.IsEmbedded t := by
  induction depth generalizing t with
  | zero =>
    rw [reached, mem_singleton] at h
    rw [h]
    exact hdecl
  | succ depth ih =>
    obtain ⟨u, hu, h⟩ := mem_flatMap.1 h
    cases u with
    | error scope => cases h
    | declared a => exact (levelWritten_structLevel (ih hu)).next t h

/-- No two packages of a program have the same import path. -/
def HasDistinctPaths (p : Program) : Prop :=
  (p.packages.map (·.path)).Nodup

theorem hasDistinctPaths_add (hp : p.HasDistinctPaths)
    (hfresh : p.isLoaded pkg.path = false) : (p.add pkg).HasDistinctPaths := by
  have hpaths := (perm_insertPackage pkg p.packages).map (·.path)
  rw [HasDistinctPaths, add, hpaths.nodup_iff, map_cons, nodup_cons]
  refine ⟨fun hmem => ?_, hp⟩
  obtain ⟨q, hq, heq⟩ := mem_map.1 hmem
  rw [isLoaded, any_eq_false] at hfresh
  exact hfresh q hq (beq_iff_eq.2 heq)

theorem hasDistinctPaths_of_load (hload : load source roots = .ok p) : p.HasDistinctPaths :=
  load_induction (motive := HasDistinctPaths) nodup_nil (fun _ _ hp => hp)
    (fun _ _ _ _ hp hfresh _ => hasDistinctPaths_add hp hfresh) hload

/-- In a program that was loaded, types that are found under their names are told apart by these. -/
theorem eq_of_qualifiedName (hload : load source roots = .ok p) {a b : Declared}
    (ha : a ∈ p.typeDecls) (hb : b ∈ p.typeDecls) (hfirsta : IsFirst a) (hfirstb : IsFirst b)
    (heq : a.qualifiedName = b.qualifiedName) : a = b := by
  have hida := (spec_written (isRead_of_load hload) ha).name
  have hidb := (spec_written (isRead_of_load hload) hb).name
  have hnames : a.package.path = b.package.path ∧ a.name = b.name := by
    refine eq_of_pointed hida hidb ?_
    simpa [Declared.qualifiedName, Declared.name] using congrArg String.toList heq
  have hpkg : a.package = b.package :=
    inj_on_of_nodup_map (hasDistinctPaths_of_load hload) (isScope_of_mem ha).1.package
      (isScope_of_mem hb).1.package hnames.1
  rw [IsFirst, hpkg, hnames.2] at hfirsta
  exact Option.some.inj (hfirsta.symm.trans hfirstb)

/-- In a program that was loaded, the types reached from a type are told apart by their names. -/
theorem distinguishes_of_load (hload : load source roots = .ok p) (hmem : decl ∈ p.typeDecls)
    (hfirst : IsFirst decl) : p.Distinguishes decl := by
  have hreached : ∀ d a, .declared a ∈ p.reached decl d → a ∈ p.typeDecls :=
    fun d a ha => isEmbedded_of_mem_reached hmem ha
  constructor
  · intro d a ha
    exact mem_map_of_mem (hreached d a ha)
  · intro d d' a b ha hb heq
    exact eq_of_qualifiedName hload (hreached d a ha) (hreached d' b hb)
      (isFirst_of_mem_reached hfirst ha) (isFirst_of_mem_reached hfirst hb) heq

/-! ## Method sets -/

theorem depth_of_mem_methodsIn {m : String × MethodEntry} (h : m ∈ p.methodsIn depth t) :
    m.2.depth = depth := by
  cases t with
  | error scope =>
    rw [methodsIn, mem_singleton] at h
    rw [h]
  | declared decl =>
    simp only [methodsIn, declaredMethods] at h
    split at h
    · rcases hexpand : p.expand decl [] with e | expansion
      · simp only [hexpand] at h
        cases h
      · simp only [hexpand, Except.toOption, Option.getD_some, mem_flatMap, mem_map] at h
        obtain ⟨group, -, method, -, rfl⟩ := h
        rfl
    · simp only [Except.toOption, Option.getD_some, mem_map] at h
      obtain ⟨func, -, rfl⟩ := h
      rfl

theorem depth_of_occurrences
    (h : p.occurrences decl depth name = [some entry]) : entry.depth = depth := by
  have hmem : some entry ∈ p.occurrences decl depth name := h ▸ mem_singleton_self _
  obtain ⟨t, -, hmem⟩ := mem_flatMap.1 hmem
  rcases mem_append.1 hmem with hmem | hmem
  · obtain ⟨m, hm, heq⟩ := mem_map.1 hmem
    cases heq
    exact depth_of_mem_methodsIn (mem_filter.1 hm).1
  · obtain ⟨field, -, heq⟩ := mem_map.1 hmem
    cases heq

/-- The methods of a declared type that is no alias are those that the selector rule selects, if the
methods of all embedded types can be listed and no type is reached by two paths of its least
length. -/
theorem get?_methodSet_iff {source : PackageSource} {roots : List String}
    (hload : load source roots = .ok p) {r : TypeRef} {decl : Declared}
    (hdecl : p.lookup? r = some decl) (halias : decl.spec.isAlias = false)
    (hlists : ∀ depth a, .declared a ∈ p.reached decl depth → p.ListsMethods a)
    (hsingle : p.SinglePaths decl) :
    ∃ set, p.methodSet decl = .ok set ∧
      ∀ name entry, set.get? name = some entry ↔ p.Selects decl name entry := by
  obtain ⟨pkg, hpkg, hlookup⟩ := Option.bind_eq_some_iff.1 hdecl
  have hmem : decl ∈ p.typeDecls := mem_typeDecls_of_lookup? (mem_packages_of_package? hpkg) hlookup
  have hdist := distinguishes_of_load hload hmem (isFirst_of_lookup? hlookup)
  have hstart : p.ComesTo decl 0 p.typeNames [.declared decl] := by
    refine ⟨.refl _, fun name => (and_iff_left_of_imp fun _ d hd => ?_).symm⟩
    exact absurd hd (Nat.not_lt_zero d)
  have htypes : ∀ d, Without (p.Earlier decl d) (p.searched p.typeNames [.declared decl] d)
      (p.reached decl d) := by
    intro d
    simpa using hstart.searched hsingle hdist d
  have hempty : ∀ name e, MethodSet.empty.get? name = some e → name ∈ [] := by
    simp [MethodSet.get?, MethodSet.empty]
  obtain ⟨set, hset, hget⟩ := get?_methodsFrom 0
    (fun d a ha => hlists d a ((htypes d).sublist.subset ha)) hempty
  refine ⟨set, ?_, fun name entry => ?_⟩
  · have hroot : p.followAlias? decl = some decl := by
      rw [followAlias?, hopLimit, followAliasWithin, halias]
      rfl
    rw [methodSet, hroot]
    exact hset
  · rw [hget, selectsFrom_searched_iff htypes]
    simp only [MethodSet.get?, MethodSet.empty, lookup_nil, not_mem_nil,
      not_false_eq_true, true_and, false_or, reduceCtorEq]
    refine exists_congr fun depth => and_congr_right fun _ => ?_
    exact (and_iff_left_of_imp depth_of_occurrences).symm

/-! ### Files with embedded fields -/

/-- A struct type. -/
def structSpec (name : String) (span : Span) (fields : List Field) : TypeSpec :=
  ⟨name, span, [], false, .struct fields⟩

/-- An embedded field. -/
def embeds (type : String) : Field :=
  ⟨[], .name type, none⟩

/-- A method without parameters that does nothing. -/
def emptyMethod (base name : String) (span body : Span) : Decl :=
  .func { recv := some ⟨none, false, base, []⟩, name, typeParams := [], sig := ⟨[], []⟩,
          body := some body, span }

/-- A file where methods are promoted, hidden by a field and cancel each other, and where a type is
embedded at two depths. -/
def promotedFile : SourceFile where
  package := "a"
  packageSpan := ⟨0, 9⟩
  imports := []
  decls := [.types ⟨10, 82⟩
      [structSpec "A" ⟨15, 34⟩ [embeds "B", embeds "C", ⟨["x"], .name "int", none⟩],
        structSpec "B" ⟨35, 46⟩ [embeds "D"], structSpec "C" ⟨47, 58⟩ [embeds "E"],
        structSpec "E" ⟨59, 70⟩ [embeds "D"], structSpec "D" ⟨71, 81⟩ []],
    emptyMethod "B" "N" ⟨83, 95⟩ ⟨93, 95⟩, emptyMethod "C" "N" ⟨96, 108⟩ ⟨106, 108⟩,
    emptyMethod "D" "M" ⟨109, 121⟩ ⟨119, 121⟩, emptyMethod "D" "x" ⟨122, 134⟩ ⟨132, 134⟩]

/-- The text of this file. -/
def promotedText : String :=
  "package a;type(A struct\x7bB;C;x int\x7d;B struct\x7bD\x7d;C struct\x7bE\x7d;" ++
    "E struct\x7bD\x7d;D struct\x7b\x7d);" ++
    "func(B)N()\x7b\x7d;func(C)N()\x7b\x7d;func(D)M()\x7b\x7d;func(D)x()\x7b\x7d"

/-- A file where a method is reached by two paths of the same length. -/
def diamondFile : SourceFile where
  package := "a"
  packageSpan := ⟨0, 9⟩
  imports := []
  decls := [.types ⟨10, 64⟩
      [structSpec "A" ⟨15, 28⟩ [embeds "B", embeds "C"], structSpec "B" ⟨29, 40⟩ [embeds "D"],
        structSpec "C" ⟨41, 52⟩ [embeds "D"], structSpec "D" ⟨53, 63⟩ []],
    emptyMethod "D" "M" ⟨65, 77⟩ ⟨75, 77⟩]

/-- The text of this file. -/
def diamondText : String :=
  "package a;type(A struct\x7bB;C\x7d;B struct\x7bD\x7d;C struct\x7bD\x7d;D struct\x7b\x7d);" ++
    "func(D)M()\x7b\x7d"

/-- The first type that is declared in a file. -/
def firstDecl (text : String) (file : SourceFile) : Declared :=
  ⟨⟨"m/a", "a", [⟨"m/a/a.go", text, file⟩]⟩, ⟨"m/a/a.go", text, file⟩,
    file.typeSpecs.getD 0 default⟩

theorem listsMethods_of_forall (hdecl : decl ∈ p.typeDecls)
    (h : ∀ a ∈ p.typeDecls, (p.declaredMethods 0 a).isOk = true) (depth : Nat) (a : Declared)
    (ha : .declared a ∈ p.reached decl depth) : p.ListsMethods a := by
  have hok := h a (isEmbedded_of_mem_reached hdecl ha)
  cases hmethods : p.declaredMethods 0 a with
  | error e => rw [hmethods] at hok; cases hok
  | ok methods => exact ⟨methods, hmethods⟩

theorem reached_eq_nil (h : p.reached decl depth = []) {d : Nat} (hd : depth ≤ d) :
    p.reached decl d = [] := by
  induction d, hd using Nat.le_induction with
  | base => exact h
  | succ d _ ih => rw [reached, ih, flatMap_nil]

theorem singlePaths_of_nodup (depth : Nat) (h : p.reached decl depth = [])
    (hnodup : ∀ d < depth, (p.reached decl d).Nodup) : p.SinglePaths decl := by
  intro d a _
  rcases Nat.lt_or_ge d depth with hd | hd
  · exact nodup_iff_count_le_one.1 (hnodup d hd) _
  · rw [reached_eq_nil h hd]
    exact Nat.zero_le _

/-- Of the methods below `A`, two of one depth cancel each other, a field hides one, and the last is
promoted from the depth at which its type is first embedded. -/
theorem get?_methodSet_iff_promoted :
    ∃ p set, load ((Shelf.empty none).addFile "m/a" "a.go" promotedText).toSource ["m/a"] = .ok p ∧
      p.methodSet (firstDecl promotedText promotedFile) = .ok set ∧
      set.entries.map (fun m => (m.1, m.2.depth)) = [("M", 2)] ∧
      ∀ name entry, set.get? name = some entry ↔
        p.Selects (firstDecl promotedText promotedFile) name entry := by
  have hparse : SourceFile.parse promotedText = .ok promotedFile := by decide +kernel
  have hload := load_single "m/a" "a.go" hparse rfl (by decide)
  have hdecl : (single "m/a" "a.go" promotedText promotedFile).lookup? ⟨"m/a", "A"⟩
      = some (firstDecl promotedText promotedFile) := by decide +kernel
  have hmem : firstDecl promotedText promotedFile
      ∈ (single "m/a" "a.go" promotedText promotedFile).typeDecls := by decide +kernel
  have hlists := listsMethods_of_forall hmem (by decide +kernel)
  have hsingle : (single "m/a" "a.go" promotedText promotedFile).SinglePaths
      (firstDecl promotedText promotedFile) :=
    singlePaths_of_nodup 4 (by decide +kernel) (by decide +kernel)
  obtain ⟨set, hset, hget⟩ := get?_methodSet_iff hload hdecl rfl hlists hsingle
  refine ⟨_, set, hload, hset, ?_, hget⟩
  have hentries : ((single "m/a" "a.go" promotedText promotedFile).methodSet
      (firstDecl promotedText promotedFile)).map
        (fun set => set.entries.map fun m => (m.1, m.2.depth)) = .ok [("M", 2)] := by decide +kernel
  rw [hset] at hentries
  exact Except.ok.inj hentries

/-- A method that two paths of the same length lead to is in the method set, although the rule
selects none. -/
theorem methodSet_diamond :
    ∃ p set entry, load ((Shelf.empty none).addFile "m/a" "a.go" diamondText).toSource ["m/a"]
        = .ok p ∧
      p.lookup? ⟨"m/a", "A"⟩ = some (firstDecl diamondText diamondFile) ∧
      (firstDecl diamondText diamondFile).spec.isAlias = false ∧
      (∀ depth a, .declared a ∈ p.reached (firstDecl diamondText diamondFile) depth →
        p.ListsMethods a) ∧
      p.methodSet (firstDecl diamondText diamondFile) = .ok set ∧
      set.get? "M" = some entry ∧
      ∀ e, ¬ p.Selects (firstDecl diamondText diamondFile) "M" e := by
  have hparse : SourceFile.parse diamondText = .ok diamondFile := by decide +kernel
  have hload := load_single "m/a" "a.go" hparse rfl (by decide)
  have hmem : firstDecl diamondText diamondFile
      ∈ (single "m/a" "a.go" diamondText diamondFile).typeDecls := by decide +kernel
  have hlists := listsMethods_of_forall hmem (by decide +kernel)
  set scope := (firstDecl diamondText diamondFile).scope
  have hset : (single "m/a" "a.go" diamondText diamondFile).methodSet
      (firstDecl diamondText diamondFile) = .ok ⟨[("M", ⟨scope, ⟨[], []⟩, 2⟩)]⟩ := by decide +kernel
  refine ⟨_, _, ⟨scope, ⟨[], []⟩, 2⟩, hload, by decide +kernel, rfl, hlists, hset,
    by simp [MethodSet.get?], ?_⟩
  -- the two occurrences of the name are at depth 2
  have htwo : ((single "m/a" "a.go" diamondText diamondFile).occurrences
      (firstDecl diamondText diamondFile) 2 "M").length = 2 := by decide +kernel
  have hnone : ∀ d < 2, (single "m/a" "a.go" diamondText diamondFile).occurrences
      (firstDecl diamondText diamondFile) d "M" = [] := by decide +kernel
  rintro e ⟨depth, hbefore, hat, -⟩
  rcases Nat.lt_trichotomy depth 2 with hd | rfl | hd
  · rw [hnone depth hd] at hat
    cases hat
  · rw [hat] at htwo
    cases htwo
  · rw [hbefore 2 hd] at htwo
    cases htwo

end Program

end Stubwright
