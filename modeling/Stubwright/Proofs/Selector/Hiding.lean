import Stubwright.Proofs.Selector

/-!
# What the walk over embedded fields finds and hides

The walk that a method set is made by, stated by what was seen so far and what is embedded at a
depth, and the methods that it keeps.  What a field is called and what it embeds is read off the
struct type that a declared type is made of.

* `Program.hasField_iff`, `Program.embedsType_iff`: the search lists these fields and types.
* `Program.embeddingWalk`: the walk ends, and a declared type contributes once, at the least depth
  at which it is reached through types that contribute.
* `Program.methodSet_walk`: only the methods of the type itself can make the search fail, and it
  keeps the methods that the walk finds.
-/

namespace Stubwright

open List

/-- The name that an embedded field is selected by: that of its type, without the package, pointers,
parentheses and type arguments. -/
inductive TypeExpr.NamesField : TypeExpr → String → Prop
  | name (n : String) : NamesField (.name n) n
  | qualified (package n : String) : NamesField (.qualified package n) n
  | pointer {elem : TypeExpr} {n : String} (h : NamesField elem n) : NamesField (.pointer elem) n
  | paren {elem : TypeExpr} {n : String} (h : NamesField elem n) : NamesField (.paren elem) n
  | generic {base : TypeExpr} {args : List TypeExpr} {n : String} (h : NamesField base n) :
    NamesField (.generic base args) n

theorem TypeExpr.namesField_iff {type : TypeExpr} {n : String} :
    type.NamesField n ↔ type.embeddedName? = some n := by
  constructor
  · intro h
    induction h with
    | name | qualified => rfl
    | pointer _ ih | paren _ ih | generic _ ih => exact ih
  · intro h
    fun_induction embeddedName? type with
    | case1 | case2 =>
      cases h
      constructor
    | case3 _ ih => exact .pointer (ih h)
    | case4 _ ih => exact .paren (ih h)
    | case5 _ _ ih => exact .generic (ih h)
    | case6 => cases h

namespace Program

variable {p : Program} {root : Declared} {types : List Embedded} {name : String}
  {seen fresh : List String} {t : Embedded} {a : Declared} {depth : Nat} {entry : MethodEntry}
  {u : Embedded}

/-! ## Fields -/

/-- A declared type is made of a struct type with a group of fields, written in the given scope. -/
def HasGroup (p : Program) (decl : Declared) (scope : Scope) (group : Field) : Prop :=
  ∃ fields, p.underlying decl = (scope, .struct fields) ∧ group ∈ fields

/-- A type has a field of a name: one that is listed, or an embedded one. -/
inductive HasField (p : Program) : Embedded → String → Prop
  | listed {decl : Declared} {scope : Scope} {group : Field} {name : String}
      (hgroup : p.HasGroup decl scope group) (hname : name ∈ group.names) :
      HasField p (.declared decl) name
  | embedded {decl : Declared} {scope : Scope} {group : Field} {name : String}
      (hgroup : p.HasGroup decl scope group) (hnone : group.names = [])
      (hname : group.type.NamesField name) : HasField p (.declared decl) name

/-- A type has an embedded field of another type: the one that the field's type stands for when
aliases are followed, or `error` where nothing is declared under this name. -/
inductive EmbedsType (p : Program) : Embedded → Embedded → Prop
  | declared {decl next target : Declared} {scope : Scope} {group : Field}
      (hgroup : p.HasGroup decl scope group) (hnone : group.names = [])
      (hnext : p.resolveType? scope group.type = some next)
      (htarget : p.followAlias? next = some target) : EmbedsType p (.declared decl) (.declared target)
  | error {decl : Declared} {scope : Scope} {group : Field}
      (hgroup : p.HasGroup decl scope group) (hnone : group.names = [])
      (hnext : p.resolveType? scope group.type = none)
      (herror : group.type.unparen = .name "error") : EmbedsType p (.declared decl) (.error scope)

theorem fieldLevel_of_embedded {scope : Scope} {group : Field} (h : group.names = []) :
    p.fieldLevel scope group
      = ⟨[], group.type.embeddedName?.toList, (p.embeddedType? scope group.type).toList⟩ :=
  if_pos (isEmpty_iff.2 h)

/-- What the search finds in a struct type it finds in one of its groups. -/
theorem mem_structLevel_iff :
    (∀ name, name ∈ (p.structLevel a).fields ↔
      ∃ scope group, p.HasGroup a scope group ∧ name ∈ (p.fieldLevel scope group).fields) ∧
    ∀ u, u ∈ (p.structLevel a).next ↔
      ∃ scope group, p.HasGroup a scope group ∧ u ∈ (p.fieldLevel scope group).next := by
  unfold structLevel HasGroup
  split
  · rename_i scope fields heq
    simp only [heq, Prod.mk.injEq, TypeExpr.struct.injEq]
    have hfields : ∀ groups : List Field,
        (∀ name, name ∈ ((groups.map (p.fieldLevel scope)).foldr Level.append .empty).fields ↔
          ∃ group ∈ groups, name ∈ (p.fieldLevel scope group).fields) ∧
        ∀ u, u ∈ ((groups.map (p.fieldLevel scope)).foldr Level.append .empty).next ↔
          ∃ group ∈ groups, u ∈ (p.fieldLevel scope group).next := by
      intro groups
      induction groups with
      | nil => simp [Level.empty]
      | cons group groups ih => simp [Level.append, ih]
    exact ⟨fun name => ((hfields fields).1 name).trans (by simp),
      fun u => ((hfields fields).2 u).trans (by simp)⟩
  · rename_i hne
    refine ⟨fun name => iff_of_false (by simp [Level.empty]) ?_,
      fun u => iff_of_false (by simp [Level.empty]) ?_⟩ <;>
    · rintro ⟨scope, group, ⟨fields, heq, -⟩, -⟩
      exact hne scope fields heq

theorem hasField_iff {name : String} : p.HasField t name ↔ name ∈ p.fieldsIn t := by
  cases t with
  | error scope => exact iff_of_false (by rintro ⟨⟩) not_mem_nil
  | declared decl =>
    rw [fieldsIn, mem_structLevel_iff.1]
    constructor
    · rintro (⟨hgroup, hname⟩ | ⟨hgroup, hnone, hname⟩)
      · have hlisted : ¬Field.isEmbedded _ = true := mt isEmpty_iff.1 (ne_nil_of_mem hname)
        exact ⟨_, _, hgroup, by rwa [fieldLevel, if_neg hlisted]⟩
      · refine ⟨_, _, hgroup, ?_⟩
        rw [fieldLevel_of_embedded hnone]
        exact Option.mem_toList.2 (TypeExpr.namesField_iff.1 hname)
    · rintro ⟨scope, group, hgroup, hname⟩
      unfold fieldLevel at hname
      split at hname
      · rename_i hnone
        exact .embedded hgroup (isEmpty_iff.1 hnone)
          (TypeExpr.namesField_iff.2 (Option.mem_toList.1 hname))
      · exact .listed hgroup hname

theorem embedsType_iff : p.EmbedsType t u ↔ u ∈ p.embeddedIn t := by
  cases t with
  | error scope => exact iff_of_false (by rintro ⟨⟩) not_mem_nil
  | declared decl =>
    rw [embeddedIn, mem_structLevel_iff.2]
    constructor
    · intro h
      cases h with
      | declared hgroup hnone hnext htarget =>
        refine ⟨_, _, hgroup, ?_⟩
        rw [fieldLevel_of_embedded hnone]
        simp [embeddedType?, hnext, htarget]
      | error hgroup hnone hnext herror =>
        refine ⟨_, _, hgroup, ?_⟩
        rw [fieldLevel_of_embedded hnone]
        simp [embeddedType?, hnext, herror]
    · rintro ⟨scope, group, hgroup, hu⟩
      unfold fieldLevel at hu
      split at hu
      · rename_i hnone
        have hu := Option.mem_toList.1 hu
        unfold embeddedType? at hu
        split at hu
        · rename_i next hnext
          obtain ⟨target, htarget, rfl⟩ := Option.map_eq_some_iff.1 hu
          exact .declared hgroup (isEmpty_iff.1 hnone) hnext htarget
        · rename_i hnext
          split at hu
          · rename_i n herror
            split at hu
            · rename_i hn
              cases hu
              exact .error hgroup (isEmpty_iff.1 hnone) hnext (hn ▸ herror)
            · cases hu
          · cases hu
      · cases hu

/-! ## The walk -/

/-- Whether what a type has is known: a declared type whose methods cannot be listed is passed
over. -/
def hasMembers (p : Program) : Embedded → Bool
  | .declared decl => (p.declaredMethods 0 decl).isOk
  | .error _ => true

def declaredName? : Embedded → Option String
  | .declared decl => some decl.qualifiedName
  | .error _ => none

def namesAmong (types : List Embedded) : List String :=
  types.filterMap declaredName?

/-- Of types that are embedded at a depth, those whose names were not seen before, each once, and
every `error`. -/
def unseen (seen : List String) : List Embedded → List Embedded
  | [] => []
  | .error scope :: rest => .error scope :: unseen seen rest
  | .declared decl :: rest =>
    if decl.qualifiedName ∈ seen then unseen seen rest
    else .declared decl :: unseen (decl.qualifiedName :: seen) rest

/-- The state of the walk before it looks at a depth. -/
structure Front where
  /-- The names of the types that were seen. -/
  seen : List String
  types : List Embedded

/-- The types that the walk looks at. -/
def Front.looked (f : Front) : List Embedded :=
  unseen f.seen f.types

/-- The types that bring in methods and fields. -/
def Front.contributing (p : Program) (f : Front) : List Embedded :=
  f.looked.filter p.hasMembers

/-- One step of the walk: one depth further. -/
def Front.next (p : Program) (f : Front) : Front :=
  ⟨namesAmong f.types ++ f.seen, (f.contributing p).flatMap p.embeddedIn⟩

/-- The state of the walk from a declared type at a depth. -/
def front (p : Program) (root : Declared) (depth : Nat) : Front :=
  (Front.next p)^[depth] ⟨[], [.declared root]⟩

/-- The types that contribute methods and fields at a depth. -/
def contributing (p : Program) (root : Declared) (depth : Nat) : List Embedded :=
  (p.front root depth).contributing p

/-- A type is reached by so many embedded fields, one in the type of another, through types that
contribute. -/
inductive ReachedThrough (p : Program) (root : Declared) : Nat → Embedded → Prop
  /-- The declared type itself. -/
  | root : ReachedThrough p root 0 (.declared root)
  /-- An embedded field of a type that contributes. -/
  | field {depth d : Nat} {t u : Embedded} (ht : ReachedThrough p root depth t)
      (hcontributes : t ∈ p.contributing root d) (hu : p.EmbedsType t u) :
      ReachedThrough p root (depth + 1) u

/-- What holds of the walk from a declared type. -/
structure EmbeddingWalk (p : Program) (root : Declared) : Prop where
  /-- It ends: beyond so many depths as there are declared types nothing is embedded. -/
  ends : ∀ depth, p.typeNames.length < depth → (p.front root depth).types = []
  once : ∀ a b d e, .declared a ∈ p.contributing root d → .declared b ∈ p.contributing root e →
    a.qualifiedName = b.qualifiedName → a = b ∧ d = e ∧ (p.contributing root d).count (.declared a) = 1
  least : ∀ a depth, .declared a ∈ p.contributing root depth →
    IsLeast {d | p.ReachedThrough root d (.declared a)} depth
  /-- A type that is reached, or one of its name, has been looked at by then. -/
  complete : ∀ a depth, p.ReachedThrough root depth (.declared a) →
    ∃ d ≤ depth, ∃ b, b.qualifiedName = a.qualifiedName ∧ .declared b ∈ (p.front root d).looked

/-- A method is found from a declared type: of the types that contribute, none at a smaller depth
has a method or a field of its name, none at its own depth has such a field, and it is the only
method of its name there. -/
structure Found (p : Program) (root : Declared) (name : String) (entry : MethodEntry) : Prop where
  /-- Nothing hides it from above. -/
  above : ∀ d < entry.depth, ∀ t ∈ p.contributing root d,
    name ∉ (p.methodsIn d t).map (·.1) ∧ ¬p.HasField t name
  /-- No field hides it. -/
  field : ∀ t ∈ p.contributing root entry.depth, ¬p.HasField t name
  alone : ((p.contributing root entry.depth).flatMap (p.methodsIn entry.depth)).filter (·.1 == name)
    = [(name, entry)]

/-! ## What is seen -/

theorem front_succ (depth : Nat) : p.front root (depth + 1) = (p.front root depth).next p :=
  Function.iterate_succ_apply' _ _ _

theorem mem_namesAmong :
    name ∈ namesAmong types ↔ ∃ a, .declared a ∈ types ∧ a.qualifiedName = name := by
  rw [namesAmong, mem_filterMap]
  constructor
  · rintro ⟨t, ht, hname⟩
    cases t with
    | declared a => exact ⟨a, ht, Option.some.inj hname⟩
    | error scope => cases hname
  · rintro ⟨a, ha, rfl⟩
    exact ⟨_, ha, rfl⟩

theorem mem_of_mem_unseen (h : t ∈ unseen seen types) :
    t ∈ types ∧ ∀ a, t = .declared a → a.qualifiedName ∉ seen := by
  induction types generalizing seen with
  | nil => cases h
  | cons u rest ih =>
    cases u with
    | error scope =>
      rw [unseen, mem_cons] at h
      rcases h with rfl | h
      · exact ⟨mem_cons_self, by simp⟩
      · exact ⟨mem_cons_of_mem _ (ih h).1, (ih h).2⟩
    | declared decl =>
      rw [unseen] at h
      split at h
      · exact ⟨mem_cons_of_mem _ (ih h).1, (ih h).2⟩
      · rename_i hmem
        rcases mem_cons.1 h with rfl | h
        · refine ⟨mem_cons_self, ?_⟩
          rintro a ⟨⟩
          exact hmem
        · refine ⟨mem_cons_of_mem _ (ih h).1, fun a ha hseen => ?_⟩
          exact (ih h).2 a ha (mem_cons_of_mem _ hseen)

theorem exists_mem_unseen (h : .declared a ∈ types) (hname : a.qualifiedName ∉ seen) :
    ∃ b, b.qualifiedName = a.qualifiedName ∧ .declared b ∈ unseen seen types := by
  induction types generalizing seen with
  | nil => cases h
  | cons u rest ih =>
    cases u with
    | error scope =>
      obtain ⟨b, hb, hmem⟩ := ih ((mem_cons.1 h).resolve_left (by simp)) hname
      exact ⟨b, hb, mem_cons_of_mem _ hmem⟩
    | declared decl =>
      rw [unseen]
      split
      · rename_i hmem
        rcases mem_cons.1 h with heq | h
        · cases heq
          exact absurd hmem hname
        · exact ih h hname
      · by_cases hsame : a.qualifiedName = decl.qualifiedName
        · exact ⟨decl, hsame.symm, mem_cons_self⟩
        · have hrest : .declared a ∈ rest := by
            refine (mem_cons.1 h).resolve_left ?_
            rintro ⟨⟩
            exact hsame rfl
          have hname' : a.qualifiedName ∉ decl.qualifiedName :: seen := by simp [hsame, hname]
          obtain ⟨b, hb, hmem⟩ := ih hrest hname'
          exact ⟨b, hb, mem_cons_of_mem _ hmem⟩

theorem nodup_namesAmong_unseen (seen : List String) (types : List Embedded) :
    (namesAmong (unseen seen types)).Nodup := by
  induction types generalizing seen with
  | nil => exact nodup_nil
  | cons u rest ih =>
    cases u with
    | error scope => exact ih seen
    | declared decl =>
      rw [unseen]
      split
      · exact ih seen
      · rw [namesAmong, filterMap_cons_some (f := declaredName?) rfl, nodup_cons]
        refine ⟨fun hmem => ?_, ih _⟩
        obtain ⟨a, ha, hname⟩ := mem_namesAmong.1 hmem
        exact (mem_of_mem_unseen ha).2 a rfl (hname ▸ mem_cons_self)

/-- Where the names of declared types differ, a type stands once, and no other has its name. -/
theorem eq_of_nodup_namesAmong (h : (namesAmong types).Nodup) {b : Declared}
    (ha : .declared a ∈ types) (hb : .declared b ∈ types)
    (hname : a.qualifiedName = b.qualifiedName) : a = b ∧ types.count (.declared a) = 1 := by
  induction types with
  | nil => cases ha
  | cons u rest ih =>
    cases u with
    | error scope =>
      have hne : ∀ c : Declared, .declared c ∈ Embedded.error scope :: rest → .declared c ∈ rest :=
        fun c hc => (mem_cons.1 hc).resolve_left (by simp)
      obtain ⟨heq, hcount⟩ := ih h (hne a ha) (hne b hb)
      exact ⟨heq, by rw [count_cons_of_ne (by simp), hcount]⟩
    | declared decl =>
      rw [namesAmong, filterMap_cons_some (f := declaredName?) rfl, nodup_cons] at h
      have hother : ∀ c : Declared, .declared c ∈ rest → c.qualifiedName ≠ decl.qualifiedName :=
        fun c hc heq => h.1 (mem_namesAmong.2 ⟨c, hc, heq⟩)
      rcases mem_cons.1 ha with heq | harest
      · cases heq
        have hcount : rest.count (.declared a) = 0 :=
          count_eq_zero.2 fun hmem => hother a hmem rfl
        refine ⟨?_, by rw [count_cons_self, hcount]⟩
        rcases mem_cons.1 hb with heq | hbrest
        · cases heq
          rfl
        · exact absurd hname.symm (hother b hbrest)
      · rcases mem_cons.1 hb with heq | hbrest
        · cases heq
          exact absurd hname (hother a harest)
        · obtain ⟨heq, hcount⟩ := ih h.2 harest hbrest
          refine ⟨heq, ?_⟩
          rw [count_cons_of_ne, hcount]
          rintro ⟨⟩
          exact hother _ harest rfl

/-- The names seen before a depth are those of the declared types embedded at smaller depths. -/
theorem mem_seen_front :
    name ∈ (p.front root depth).seen ↔
      ∃ d < depth, ∃ a, .declared a ∈ (p.front root d).types ∧ a.qualifiedName = name := by
  induction depth with
  | zero => simp [front]
  | succ depth ih =>
    rw [front_succ, Front.next, mem_append, mem_namesAmong, ih]
    constructor
    · rintro (h | ⟨d, hd, h⟩)
      · exact ⟨depth, Nat.lt_succ_self depth, h⟩
      · exact ⟨d, Nat.lt_succ_of_lt hd, h⟩
    · rintro ⟨d, hd, h⟩
      rcases Nat.lt_succ_iff_lt_or_eq.1 hd with hd | rfl
      · exact .inr ⟨d, hd, h⟩
      · exact .inl h

/-- A declared type that contributes is embedded at its depth, and no type of its name at a smaller
one. -/
theorem mem_of_contributes (h : .declared a ∈ p.contributing root depth) :
    .declared a ∈ (p.front root depth).types ∧
      ∀ d < depth, ∀ b, .declared b ∈ (p.front root d).types → b.qualifiedName ≠ a.qualifiedName := by
  obtain ⟨hmem, hname⟩ := mem_of_mem_unseen (mem_filter.1 h).1
  exact ⟨hmem, fun d hd b hb heq => hname a rfl (mem_seen_front.2 ⟨d, hd, b, hb, heq⟩)⟩

/-! ## Depths -/

theorem reachedThrough_of_mem (h : t ∈ (p.front root depth).types) :
    p.ReachedThrough root depth t := by
  induction depth generalizing t with
  | zero =>
    rw [front, Function.iterate_zero_apply, mem_singleton] at h
    rw [h]
    exact .root
  | succ depth ih =>
    rw [front_succ, Front.next] at h
    obtain ⟨u, hu, ht⟩ := mem_flatMap.1 h
    exact .field (ih (mem_of_mem_unseen (mem_filter.1 hu).1).1) hu (embedsType_iff.2 ht)

theorem ReachedThrough.exists_le (h : p.ReachedThrough root depth t) :
    ∃ d ≤ depth, t ∈ (p.front root d).types := by
  induction h with
  | root => exact ⟨0, Nat.le_refl 0, mem_singleton_self _⟩
  | @field depth e t u _ hcontributes hu ih =>
    obtain ⟨d, hd, ht⟩ := ih
    refine ⟨e + 1, Nat.succ_le_succ ?_, ?_⟩
    · -- it contributes where it is embedded first
      cases t with
      | error scope => cases hu
      | declared a =>
        by_contra hlt
        exact (mem_of_contributes hcontributes).2 d (by omega) a ht rfl
    · rw [front_succ, Front.next]
      exact mem_flatMap_of_mem hcontributes (embedsType_iff.1 hu)

/-- From types of the program a step leads to types of the program. -/
theorem Front.isEmbedded_next {f : Front} (h : ∀ t ∈ f.types, p.IsEmbedded t) :
    ∀ t ∈ (f.next p).types, p.IsEmbedded t := by
  intro t ht
  obtain ⟨u, hu, ht⟩ := mem_flatMap.1 ht
  have hmem := h u (mem_of_mem_unseen (mem_filter.1 hu).1).1
  cases u with
  | error scope => cases ht
  | declared a => exact (levelWritten_structLevel hmem).next t ht

/-- The types that the walk comes to are types of the program. -/
theorem isEmbedded_of_mem_front (hroot : root ∈ p.typeDecls) (depth : Nat) :
    ∀ t ∈ (p.front root depth).types, p.IsEmbedded t := by
  induction depth with
  | zero =>
    intro t ht
    rw [front, Function.iterate_zero_apply, mem_singleton] at ht
    rw [ht]
    exact hroot
  | succ depth ih =>
    rw [front_succ]
    exact Front.isEmbedded_next ih

/-- As long as there are embedded types, every depth adds a name to those seen. -/
theorem le_card_seen (h : (p.front root depth).types ≠ []) :
    depth ≤ (p.front root depth).seen.toFinset.card := by
  induction depth with
  | zero => exact Nat.zero_le _
  | succ depth ih =>
    rw [front_succ, Front.next] at h ⊢
    obtain ⟨u, hu⟩ := exists_mem_of_ne_nil _ h
    obtain ⟨t, ht, hu⟩ := mem_flatMap.1 hu
    cases t with
    | error scope => cases hu
    | declared a =>
      obtain ⟨hmem, hname⟩ := mem_of_mem_unseen (mem_filter.1 ht).1
      have hbefore := ih (ne_nil_of_mem hmem)
      have hmore : (p.front root depth).seen.toFinset ⊂
          (namesAmong (p.front root depth).types ++ (p.front root depth).seen).toFinset := by
        refine Finset.ssubset_iff.2 ⟨a.qualifiedName, by simpa using hname a rfl, ?_⟩
        intro name hin
        rw [mem_toFinset, mem_append]
        rcases Finset.mem_insert.1 hin with rfl | hin
        · exact .inl (mem_namesAmong.2 ⟨a, hmem, rfl⟩)
        · exact .inr (mem_toFinset.1 hin)
      exact Nat.lt_of_le_of_lt hbefore (Finset.card_lt_card hmore)

theorem embeddingWalk (hroot : root ∈ p.typeDecls) : p.EmbeddingWalk root where
  ends := by
    intro depth hdepth
    by_contra hne
    have hseen : (p.front root depth).seen.toFinset ⊆ p.typeNames.toFinset := by
      intro name hname
      obtain ⟨d, -, a, ha, rfl⟩ := mem_seen_front.1 (mem_toFinset.1 hname)
      exact mem_toFinset.2 (mem_map_of_mem (isEmbedded_of_mem_front hroot d _ ha))
    have hcard := (le_card_seen hne).trans (Finset.card_le_card hseen)
    have := toFinset_card_le p.typeNames
    omega
  once := by
    intro a b d e ha hb hname
    have hdepth : d = e := by
      rcases Nat.lt_trichotomy d e with hlt | heq | hlt
      · exact absurd hname ((mem_of_contributes hb).2 d hlt a (mem_of_contributes ha).1)
      · exact heq
      · exact absurd hname.symm ((mem_of_contributes ha).2 e hlt b (mem_of_contributes hb).1)
    subst hdepth
    have hnodup : (namesAmong (p.contributing root d)).Nodup :=
      (nodup_namesAmong_unseen _ _).sublist (filter_sublist.filterMap _)
    obtain ⟨heq, hcount⟩ := eq_of_nodup_namesAmong hnodup ha hb hname
    exact ⟨heq, rfl, hcount⟩
  least := by
    intro a depth h
    obtain ⟨hmem, hfirst⟩ := mem_of_contributes h
    refine ⟨reachedThrough_of_mem hmem, fun d hd => ?_⟩
    obtain ⟨e, he, ha⟩ := ReachedThrough.exists_le hd
    by_contra hlt
    exact hfirst e (by omega) a ha rfl
  complete := by
    intro a depth h
    obtain ⟨d, hd, ha⟩ := h.exists_le
    -- the least depth at which a type of this name is embedded
    have hname : ∃ e, ∃ b, .declared b ∈ (p.front root e).types ∧ b.qualifiedName = a.qualifiedName :=
      ⟨d, a, ha, rfl⟩
    classical
    obtain ⟨b, hb, heq⟩ := Nat.find_spec hname
    have hnew : b.qualifiedName ∉ (p.front root (Nat.find hname)).seen := by
      intro hseen
      obtain ⟨e, he, c, hc, hsame⟩ := mem_seen_front.1 hseen
      exact Nat.find_min hname he ⟨c, hc, hsame.trans heq⟩
    obtain ⟨c, hc, hmem⟩ := exists_mem_unseen hb hnew
    exact ⟨Nat.find hname, (Nat.find_min' hname ⟨a, ha, rfl⟩).trans hd, c, hc.trans heq, hmem⟩

/-! ## The methods that are kept -/

/-- A search that may still look at the names that were not seen looks at the same types. -/
theorem looked_eq_unseen
    (h : ∀ a, .declared a ∈ types → (a.qualifiedName ∈ fresh ↔ a.qualifiedName ∉ seen)) :
    looked fresh types = unseen seen types := by
  induction types generalizing fresh seen with
  | nil => rfl
  | cons t rest ih =>
    have hrest : ∀ a, .declared a ∈ rest → (a.qualifiedName ∈ fresh ↔ a.qualifiedName ∉ seen) :=
      fun a ha => h a (mem_cons_of_mem _ ha)
    cases t with
    | error scope => rw [looked, unseen, ih hrest]
    | declared decl =>
      rw [looked, unseen]
      by_cases hseen : decl.qualifiedName ∈ seen
      · rw [if_pos hseen, if_neg fun hfresh => (h decl mem_cons_self).1 hfresh hseen, ih hrest]
      · rw [if_neg hseen, if_pos ((h decl mem_cons_self).2 hseen), ih]
        intro a ha
        rw [Names.without, mem_filter, hrest a ha, mem_cons, bne_iff_ne, not_or, and_comm]

/-- A type whose methods cannot be listed has nothing embedded. -/
theorem embeddedIn_of_not_hasMembers (h : ¬p.hasMembers t = true) : p.embeddedIn t = [] := by
  cases t with
  | error scope => rfl
  | declared decl =>
    cases hmethods : p.declaredMethods 0 decl with
    | ok methods => exact absurd (by rw [hasMembers, hmethods]; rfl) h
    | error e => rw [embeddedIn, structLevel_of_error hmethods, Level.empty]

/-- A type whose methods cannot be listed has no occurrence of a name. -/
theorem occurrencesIn_of_not_hasMembers (h : ¬p.hasMembers t = true) (depth : Nat) (name : String) :
    p.occurrencesIn depth name t = [] := by
  suffices hzero : p.occurrencesIn 0 name t = [] from occurrencesIn_eq_nil hzero
  cases t with
  | error scope => exact absurd rfl h
  | declared decl =>
    cases hmethods : p.declaredMethods 0 decl with
    | ok methods => exact absurd (by rw [hasMembers, hmethods]; rfl) h
    | error e =>
      simp [occurrencesIn, methodsIn, fieldsIn, hmethods, structLevel_of_error hmethods, Level.empty,
        Except.toOption]

/-- Leaving out members with nothing in them does not change what is made of the others. -/
theorem flatMap_filter_of_nil {α β : Type} {xs : List α} {keep : α → Bool} {f : α → List β}
    (h : ∀ x ∈ xs, ¬keep x = true → f x = []) : (xs.filter keep).flatMap f = xs.flatMap f := by
  induction xs with
  | nil => rfl
  | cons x xs ih =>
    have hrest := ih fun y hy => h y (mem_cons_of_mem _ hy)
    by_cases hx : keep x = true
    · rw [filter_cons_of_pos hx, flatMap_cons, flatMap_cons, hrest]
    · rw [filter_cons_of_neg hx, flatMap_cons, h x mem_cons_self hx, hrest,
        nil_append]

/-- The types that a search looks at are those that the walk looks at. -/
theorem searched_eq_looked {f : Front} (htypes : ∀ t ∈ f.types, p.IsEmbedded t)
    (hfresh : ∀ name ∈ p.typeNames, name ∈ fresh ↔ name ∉ f.seen) (depth : Nat) :
    p.searched fresh f.types depth = ((Front.next p)^[depth] f).looked := by
  induction depth generalizing f fresh with
  | zero => exact looked_eq_unseen fun a ha => hfresh _ (mem_map_of_mem (htypes _ ha))
  | succ depth ih =>
    have hlooked : looked fresh f.types = f.looked :=
      looked_eq_unseen fun a ha => hfresh _ (mem_map_of_mem (htypes _ ha))
    have hnext : f.looked.flatMap p.embeddedIn = (f.next p).types :=
      (flatMap_filter_of_nil fun t _ => embeddedIn_of_not_hasMembers).symm
    rw [searched, hlooked, hnext, Function.iterate_succ_apply]
    refine ih (Front.isEmbedded_next htypes) fun name hname => ?_
    rw [mem_left, hfresh name hname, Front.next, mem_append, mem_namesAmong]
    push Not
    exact and_comm

theorem occurrencesAmong_looked (f : Front) (depth : Nat) (name : String) :
    p.occurrencesAmong depth name f.looked = p.occurrencesAmong depth name (f.contributing p) :=
  (flatMap_filter_of_nil fun _ _ h => occurrencesIn_of_not_hasMembers h depth name).symm

theorem occurrencesAmong_eq_nil_iff_forall :
    p.occurrencesAmong depth name types = [] ↔
      ∀ t ∈ types, name ∉ (p.methodsIn depth t).map (·.1) ∧ ¬p.HasField t name := by
  rw [occurrencesAmong_eq_nil_iff]
  simp only [hasField_iff, levelAmong, map_flatMap, mem_flatMap]
  push Not
  exact forall₂_and.symm

/-- A method is alone in a level if no other method and no field has its name. -/
theorem unique?_eq_some_iff {level : Level} :
    level.unique? name = some entry ↔
      name ∉ level.fields ∧ level.methods.filter (·.1 == name) = [(name, entry)] := by
  unfold Level.unique?
  split
  · rename_i n e heq
    have hmem : (n, e) ∈ level.methods.filter (·.1 == name) := heq ▸ mem_singleton_self _
    obtain rfl : n = name := beq_iff_eq.1 (mem_filter.1 hmem).2
    rw [heq]
    by_cases hfield : n ∈ level.fields <;> simp [hfield]
  · rename_i hne
    refine iff_of_false (by simp) fun h => hne name entry h.2

theorem occurrencesAmong_eq_singleton_iff :
    p.occurrencesAmong depth name types = [some entry] ↔
      (∀ t ∈ types, ¬p.HasField t name) ∧
        (types.flatMap (p.methodsIn depth)).filter (·.1 == name) = [(name, entry)] := by
  rw [← unique?_levelAmong, unique?_eq_some_iff]
  simp only [hasField_iff, levelAmong, mem_flatMap]
  push Not
  rfl

/-- The rule selects among the types that the walk looks at what is found from the declared type. -/
theorem selectsFrom_looked_iff :
    p.SelectsFrom 0 (fun d => (p.front root d).looked) name entry ↔ p.Found root name entry := by
  simp only [SelectsFrom, Nat.zero_add, occurrencesAmong_looked, occurrencesAmong_eq_nil_iff_forall,
    occurrencesAmong_eq_singleton_iff]
  constructor
  · rintro ⟨depth, habove, hfield, halone⟩
    have hmem := mem_singleton_self (name, entry)
    rw [← halone] at hmem
    obtain ⟨t, -, hmem⟩ := mem_flatMap.1 (mem_filter.1 hmem).1
    obtain rfl : entry.depth = depth := depth_of_mem_methodsIn hmem
    exact ⟨habove, hfield, halone⟩
  · rintro ⟨habove, hfield, halone⟩
    exact ⟨entry.depth, habove, hfield, halone⟩

theorem methodsFrom_of_error {hidden : Names} {set : MethodSet} {e : StubError}
    (h : p.levelOf depth fresh types = .error e) :
    p.methodsFrom depth fresh hidden set types = .error e := by
  unfold methodsFrom
  split
  · rename_i e' hlevel
    rw [h] at hlevel
    cases hlevel
    rfl
  · rename_i hlevel
    rw [h] at hlevel
    cases hlevel

/-- The methods of a declared type are collected by a walk that ends and at which a type contributes
once, at its least depth.  Only the methods of the type itself can make it fail, and the methods
that are kept are those that the walk finds. -/
theorem methodSet_walk {decl : Declared} (hdecl : decl ∈ p.typeDecls) :
    (p.followAlias? decl = none → p.methodSet decl = .ok .empty) ∧
    ∀ root, p.followAlias? decl = some root → p.EmbeddingWalk root ∧
      (∀ e, p.methodSet decl = .error e ↔ p.declaredMethods 0 root = .error e) ∧
      ∀ set, p.methodSet decl = .ok set →
        ∀ name entry, set.get? name = some entry ↔ p.Found root name entry := by
  refine ⟨fun hnone => by rw [methodSet, hnone], fun root hroot => ?_⟩
  have hmem : root ∈ p.typeDecls := mem_of_followAliasWithin hdecl hroot
  have hrun : p.methodSet decl = p.methodsFrom 0 p.typeNames [] .empty [.declared root] := by
    rw [methodSet, hroot]
  have hlooked : ∀ depth, p.searched p.typeNames [.declared root] depth = (p.front root depth).looked := by
    intro depth
    refine searched_eq_looked (f := ⟨[], [.declared root]⟩) (fun t ht => ?_) (by simp) depth
    rw [mem_singleton.1 ht]
    exact hmem
  have hempty : ∀ name e, MethodSet.empty.get? name = some e → name ∈ [] := by
    simp [MethodSet.get?, MethodSet.empty]
  refine ⟨embeddingWalk hmem, ?_⟩
  cases hmethods : p.declaredMethods 0 root with
  | error e =>
    have hfail : p.methodSet decl = .error e := by
      have hname : p.typeNames.contains root.qualifiedName = true :=
        contains_iff_mem.2 (mem_map_of_mem hmem)
      rw [hrun]
      refine methodsFrom_of_error ?_
      rw [levelOf, if_pos hname, declaredLevel, hmethods]
      rfl
    rw [hfail]
    exact ⟨by simp, by simp⟩
  | ok methods =>
    have hlists : ∀ a, .declared a ∈ looked p.typeNames [.declared root] → p.ListsMethods a := by
      intro a ha
      have hlook : .declared a ∈ (p.front root 0).looked := hlooked 0 ▸ ha
      cases mem_singleton.1 (mem_of_mem_unseen hlook).1
      exact ⟨methods, hmethods⟩
    obtain ⟨set, hset, hget⟩ := get?_methodsFrom_of_start 0 (fun _ => hlists) hempty
    rw [hrun, hset]
    refine ⟨by simp, ?_⟩
    rintro _ ⟨⟩ name entry
    rw [hget, ← selectsFrom_looked_iff, funext hlooked]
    simp [MethodSet.get?, MethodSet.empty]

/-- A file where types embed each other and themselves, an interface embeds itself, `error` is
embedded, and methods have the names of fields. -/
def entangledText : String :=
  "package a;type(A struct\x7b*A;B;C;error\x7d;B struct\x7bC;E;D\x7d;C struct\x7b*A;x int\x7d;" ++
    "E interface\x7bE\x7d;D struct\x7b\x7d);func(B)M()\x7b\x7d;func(C)M()\x7b\x7d;func(C)N()\x7b\x7d;" ++
    "func(D)x()\x7b\x7d;func(D)B()\x7b\x7d;func(D)O()\x7b\x7d"

/-- What is declared in this file. -/
def entangledFile : SourceFile where
  package := "a"
  packageSpan := ⟨0, 9⟩
  imports := []
  decls := [.types ⟨10, 99⟩
      [structSpec "A" ⟨15, 37⟩
        [⟨[], .pointer (.name "A"), none⟩, embeds "B", embeds "C", embeds "error"],
        structSpec "B" ⟨38, 53⟩ [embeds "C", embeds "E", embeds "D"],
        structSpec "C" ⟨54, 72⟩ [⟨[], .pointer (.name "A"), none⟩, ⟨["x"], .name "int", none⟩],
        ⟨"E", ⟨73, 87⟩, [], false, .interface [.embed (.name "E")]⟩,
        structSpec "D" ⟨88, 98⟩ []],
    emptyMethod "B" "M" ⟨100, 112⟩ ⟨110, 112⟩, emptyMethod "C" "M" ⟨113, 125⟩ ⟨123, 125⟩,
    emptyMethod "C" "N" ⟨126, 138⟩ ⟨136, 138⟩, emptyMethod "D" "x" ⟨139, 151⟩ ⟨149, 151⟩,
    emptyMethod "D" "B" ⟨152, 164⟩ ⟨162, 164⟩, emptyMethod "D" "O" ⟨165, 177⟩ ⟨175, 177⟩]

/-- In a program where `A`, `B` and `C` embed each other, the walk from `A` ends; it passes over the
interface that embeds itself.  Two methods of one depth hide each other, the field `x` and the
embedded field `B` hide methods of their names below them, and the others are kept. -/
theorem methodSet_walk_entangled :
    ∃ p set, load ((Shelf.empty none).addFile "m/a" "a.go" entangledText).toSource ["m/a"] = .ok p ∧
      firstDecl entangledText entangledFile ∈ p.typeDecls ∧
      p.EmbeddingWalk (firstDecl entangledText entangledFile) ∧
      p.methodSet (firstDecl entangledText entangledFile) = .ok set ∧
      set.entries.map (fun m => (m.1, m.2.depth)) = [("Error", 1), ("N", 1), ("O", 2)] ∧
      (∀ entry, ¬p.Found (firstDecl entangledText entangledFile) "x" entry ∧
        ¬p.Found (firstDecl entangledText entangledFile) "B" entry) ∧
      ∀ name entry, set.get? name = some entry ↔
        p.Found (firstDecl entangledText entangledFile) name entry := by
  have hparse : SourceFile.parse entangledText = .ok entangledFile := by decide +kernel
  have hload := load_single "m/a" "a.go" hparse rfl (by decide)
  have hmem : firstDecl entangledText entangledFile
      ∈ (single "m/a" "a.go" entangledText entangledFile).typeDecls := by decide +kernel
  have hroot : (single "m/a" "a.go" entangledText entangledFile).followAlias?
      (firstDecl entangledText entangledFile) = some (firstDecl entangledText entangledFile) := by
    decide +kernel
  have hrun : ((single "m/a" "a.go" entangledText entangledFile).methodSet
      (firstDecl entangledText entangledFile)).map
        (fun set => (set.entries.map fun m => (m.1, m.2.depth), set.get? "x", set.get? "B"))
          = .ok ([("Error", 1), ("N", 1), ("O", 2)], none, none) := by decide +kernel
  obtain ⟨hwalk, -, hfound⟩ := (methodSet_walk hmem).2 _ hroot
  cases hset : (single "m/a" "a.go" entangledText entangledFile).methodSet
      (firstDecl entangledText entangledFile) with
  | error e =>
    rw [hset] at hrun
    cases hrun
  | ok set =>
    rw [hset] at hrun
    obtain ⟨hentries, hx, hB⟩ : _ ∧ _ ∧ _ := by simpa using Except.ok.inj hrun
    refine ⟨_, set, hload, hmem, hwalk, hset, hentries, fun entry => ?_, hfound set hset⟩
    rw [← hfound set hset, ← hfound set hset, hx, hB]
    exact ⟨by simp, by simp⟩

end Program

end Stubwright
