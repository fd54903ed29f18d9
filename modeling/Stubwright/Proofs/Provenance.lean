import Stubwright.Implement
import Stubwright.Proofs.Accounting
import Stubwright.Proofs.Expansion
import Stubwright.Proofs.Normalise

/-!
# Where the methods of a program come from

The files of a loaded program were read from their texts, and every method that is listed for an
interface or found in a method set was written in one of these files.

* `wrote_of_methodSet`, `wrote_of_expand`: listed methods were written in the program.
-/

namespace Stubwright

open List

namespace Program

variable {p : Program} {source : PackageSource} {decl : Declared} {t : TypeExpr} {claimed : Names}
  {scope : Scope} {name : String} {elems : List Element} {fresh : List String} {depth : Nat}
  {level : Level} {set : MethodSet} {types : List Embedded} {roots : List String}
  {entry : MethodEntry} {target : Declared} {hidden : Names} {isRoot : Bool} {e : Expansion}
  {hops : Nat}

/-! ## Loading -/

/-- Every file of the program holds what was read from its text. -/
def IsRead (p : Program) : Prop :=
  ∀ pkg ∈ p.packages, ∀ file ∈ pkg.files, SourceFile.parse file.text = .ok file.source

theorem parse_of_readFiles {units : List SourceUnit} {files : List PackageFile}
    (h : readFiles isRoot units = .ok files) :
    ∀ file ∈ files, SourceFile.parse file.text = .ok file.source := by
  induction units generalizing files with
  | nil =>
    cases h
    exact nofun
  | cons unit units ih =>
    rw [readFiles] at h
    split at h
    · rename_i source hsource
      obtain ⟨rest, hrest, heq⟩ := ok_of_bind h
      cases heq
      exact forall_mem_cons.2 ⟨hsource, ih hrest⟩
    · split at h
      · cases h
      · exact ih h

theorem parse_of_readPackage {path : String} {pkg : Package}
    (h : readPackage source path isRoot = .ok (some pkg)) :
    ∀ file ∈ pkg.files, SourceFile.parse file.text = .ok file.source := by
  unfold readPackage at h
  split at h
  · cases h
  · rename_i units _
    cases hfiles : readFiles isRoot units with
    | error e => rw [hfiles] at h; cases h
    | ok files =>
      rw [hfiles] at h
      cases files with
      | nil => cases h
      | cons first rest =>
        cases h
        intro file hfile
        exact parse_of_readFiles hfiles file (mem_filter.1 hfile).1

theorem perm_insertPackage (pkg : Package) (ps : List Package) :
    (insertPackage pkg ps).Perm (pkg :: ps) := by
  induction ps with
  | nil => exact .refl _
  | cons q ps ih =>
    rw [insertPackage]
    split
    · exact .refl _
    · exact (ih.cons q).trans (.swap pkg q ps)

theorem mem_insertPackage {pkg q : Package} {ps : List Package} :
    q ∈ insertPackage pkg ps ↔ q = pkg ∨ q ∈ ps :=
  (perm_insertPackage pkg ps).mem_iff.trans mem_cons

/-- What holds at the start and is kept with each package that is read, or is missing, holds of a
loaded program. -/
theorem load_induction {motive : Program → Prop} (hempty : motive .empty)
    (hmissing : ∀ p path, motive p → motive (p.addMissing path))
    (hadd : ∀ p path isRoot pkg, motive p → p.isLoaded pkg.path = false →
      readPackage source path isRoot = .ok (some pkg) → motive (p.add pkg))
    (h : load source roots = .ok p) : motive p := by
  have hqueue : ∀ bound queue q, motive q → loadQueue source bound q queue = .ok p → motive p := by
    intro bound queue q hq h
    fun_induction loadQueue source bound q queue with
    | case1 => cases h; exact hq
    | case2 _ _ _ _ _ ih => exact ih hq h
    | case3 => cases h
    | case4 => cases h
    | case5 _ path _ _ _ _ _ _ ih | case7 _ path _ _ _ _ ih => exact ih (hmissing _ path hq) h
    | case6 q path isRoot _ hskip _ pkg hread ih =>
      refine ih (hadd q path isRoot pkg hq ?_ hread) h
      simp only [Bool.or_eq_true, not_or, Bool.not_eq_true] at hskip
      rw [path_of_readPackage hread]
      exact hskip.1.1
  exact hqueue _ _ _ hempty h

/-- A loaded program holds what was read from the texts of its files. -/
theorem isRead_of_load (h : load source roots = .ok p) : p.IsRead := by
  refine load_induction nofun (fun _ _ hp => hp) ?_ h
  intro p path isRoot pkg hp _ hread q hq
  rcases mem_insertPackage.1 hq with rfl | hq
  · exact parse_of_readPackage hread
  · exact hp q hq

/-- The program with a single package of a single file. -/
def single (path name text : String) (source : SourceFile) : Program :=
  ⟨[⟨path, source.package, [⟨path ++ "/" ++ name, text, source⟩]⟩], []⟩

/-- A file that imports nothing is loaded as the only one. -/
theorem load_single (path name : String) {text : String} {source : SourceFile}
    (hparse : SourceFile.parse text = .ok source) (himports : source.importSpecs = [])
    (hpseudo : isPseudo path = false) :
    load ((Shelf.empty none).addFile path name text).toSource [path]
      = .ok (single path name text source) := by
  set shelf := ((Shelf.empty none).addFile path name text).toSource with hshelf
  set file : PackageFile := ⟨path ++ "/" ++ name, text, source⟩ with hfile
  have hread : readPackage shelf path true = .ok (some ⟨path, source.package, [file]⟩) := by
    have hunits : shelf.read path = some [⟨path ++ "/" ++ name, text⟩] := by
      simp [hshelf, Shelf.toSource, Shelf.addFile, Shelf.empty, Shelf.insertAt]
    rw [readPackage, hunits]
    simp [readFiles, hparse, ofFiles?, hfile, Except.map, bind, Except.bind, pure, Except.pure]
  have hfresh : (Program.empty.isLoaded path || Program.empty.isMissing path || isPseudo path)
      = false := by
    rw [hpseudo]
    rfl
  have hmem : path ∈ [path] ++ shelf.reach := mem_append_left _ mem_cons_self
  rw [load, map_cons, map_nil, loadQueue]
  simp only [hfresh, hmem, dif_pos, Bool.false_eq_true, dif_neg, not_false_eq_true]
  split
  · rename_i heq
    rw [hread] at heq
    cases heq
  · rename_i heq
    rw [hread] at heq
    cases heq
  · rename_i pkg heq
    rw [hread] at heq
    cases heq
    have hnone : importPaths ⟨path, source.package, [file]⟩ = [] := by
      simp [importPaths, hfile, himports]
    rw [hnone, map_nil, append_nil, loadQueue]
    rfl

/-! ## Signatures -/

/-- A signature that can be written down, in a file of the program. -/
def Wrote (p : Program) (scope : Scope) (sig : Signature) : Prop :=
  p.IsScope scope ∧ sig.Formed identified

theorem spec_written (hread : p.IsRead) (hdecl : decl ∈ p.typeDecls) : decl.spec.Written := by
  obtain ⟨hscope, hspec⟩ := isScope_of_mem hdecl
  exact SourceFile.typeSpec_written (hread _ hscope.package _ hscope.file) hspec

theorem errorSignature_formed : errorSignature.Formed identified := by
  rw [errorSignature, Signature.Formed]
  refine ⟨(by simp), ?_, .inl (by simp), .inl ?_⟩
  · intro q hq
    rw [mem_singleton.1 hq, Param.unnamed, Param.Formed, TypeExpr.Formed]
    exact ⟨(by simp), by decide⟩
  · intro q hq
    rw [mem_singleton.1 hq]
    rfl

theorem unparen_written (h : t.Written .plain) : t.unparen.Written .plain := by
  induction t using TypeExpr.partsInduction with
  | paren elem ih =>
    rw [TypeExpr.Written, TypeExpr.Formed] at h
    exact ih h
  | _ => exact h

/-! ## The methods of an interface -/

def GroupsWritten (p : Program) (groups : List MethodGroup) : Prop :=
  ∀ group ∈ groups, ∀ m ∈ group.methods, p.Wrote group.scope m.sig

theorem groupsWritten_append {as bs : List MethodGroup} (ha : p.GroupsWritten as)
    (hb : p.GroupsWritten bs) : p.GroupsWritten (as ++ bs) := by
  intro group hgroup
  rcases mem_append.1 hgroup with h | h
  · exact ha group h
  · exact hb group h

theorem mem_of_mem_claim {ms : List Method} {m : Method} (h : m ∈ (Expansion.claim claimed ms).1) :
    m ∈ ms := by
  induction ms generalizing claimed with
  | nil => exact h
  | cons m' ms ih =>
    rw [Expansion.claim] at h
    split at h
    · exact mem_cons_of_mem _ (ih h)
    · rcases mem_cons.1 h with rfl | h
      · exact mem_cons_self
      · exact mem_cons_of_mem _ (ih h)

theorem groupsWritten_ofMethods {interface : String} {methods : List Method}
    (h : ∀ m ∈ methods, p.Wrote scope m.sig) :
    p.GroupsWritten (Expansion.ofMethods interface scope claimed methods).groups := by
  unfold Expansion.ofMethods
  split
  · exact nofun
  · rename_i kept claimed' _ hclaim
    intro group hgroup m hm
    rw [mem_singleton.1 hgroup] at hm ⊢
    have hkept : m ∈ (Expansion.claim claimed methods).1 := by
      rw [hclaim]
      exact hm
    exact h m (mem_of_mem_claim hkept)

theorem mem_of_requireQualified {qualifier : String}
    (h : p.requireQualified scope qualifier name = .ok decl) : decl ∈ p.typeDecls := by
  unfold requireQualified at h
  split at h
  · cases h
  · split at h
    · cases h
    · rename_i hpkg
      split at h
      · cases h
      · rename_i hlookup
        cases h
        exact mem_typeDecls_of_lookup? (mem_packages_of_package? hpkg) hlookup

theorem StandsFor.mem (hscope : p.IsScope scope) (h : p.StandsFor scope t decl) :
    decl ∈ p.typeDecls := by
  cases h with
  | name h => exact mem_of_resolveName hscope h
  | qualified h => exact mem_of_requireQualified h

theorem interface_elems_formed {place : Place} (h : (TypeExpr.interface elems).Written place) :
    ∀ e ∈ elems, e.Formed identified := by
  rwa [TypeExpr.Written, TypeExpr.Formed] at h

theorem mem_of_interfaceOf (hdecl : decl ∈ p.typeDecls)
    (h : p.interfaceOf decl = .ok (target, elems)) : target ∈ p.typeDecls :=
  (interfaceOf_ok h hdecl fun _ _ hcurrent hstands => hstands.mem (isScope_of_mem hcurrent).1).1

theorem interfaceOf_written (hread : p.IsRead) (hdecl : decl ∈ p.typeDecls)
    (h : p.interfaceOf decl = .ok (target, elems)) : ∀ e ∈ elems, e.Formed identified := by
  have htype := unparen_written (spec_written hread (mem_of_interfaceOf hdecl h)).type
  rcases (interfaceOf_ok (motive := fun _ => True) h trivial fun _ _ _ _ => trivial).2.1 with
    heq | rfl
  · rw [heq] at htype
    exact interface_elems_formed htype
  · exact nofun

section Expansion

variable {expandNamed : Declared → Names → Except StubError Expansion} {interface : String}
  {scope : Scope}

theorem methods_formed (h : ∀ e ∈ elems, e.Formed identified) :
    ∀ m ∈ Element.methods elems, m.sig.Formed identified := by
  intro m hm
  obtain ⟨e, he, hm⟩ := mem_filterMap.1 hm
  have hformed := h e he
  cases e with
  | method name sig =>
    cases hm
    rw [Element.Formed] at hformed
    exact hformed.2
  | embed type => cases hm

/-- The methods that an embedded element brings in were written in the program, if those of the
declared types are. -/
theorem Brings.groupsWritten {x : TypeExpr ⊕ List Element} {r : Names → Except StubError Expansion}
    (h : p.Brings expandNamed interface scope x r) (hscope : p.IsScope scope)
    (hnamed : ∀ decl claimed e, decl ∈ p.typeDecls → expandNamed decl claimed = .ok e →
      p.GroupsWritten e.groups)
    (hx : x.elim (fun t => ∃ place, t.Written place) fun elems => ∀ e ∈ elems, e.Formed identified) :
    ∀ claimed e, r claimed = .ok e → p.GroupsWritten e.groups := by
  induction h with
  | named hdecl => exact fun claimed e he => hnamed _ claimed e (hdecl.mem hscope) he
  | error _ =>
    rintro claimed _ ⟨⟩
    refine groupsWritten_ofMethods fun m hm => ⟨hscope, ?_⟩
    rw [mem_singleton.1 hm]
    exact errorSignature_formed
  | paren _ ih =>
    obtain ⟨place, hx⟩ := hx
    rw [TypeExpr.Written, TypeExpr.Formed] at hx
    exact ih ⟨.plain, hx⟩
  | literal _ ih =>
    obtain ⟨place, hx⟩ := hx
    have hformed := interface_elems_formed hx
    intro claimed e he
    obtain ⟨a, b, ha, hb, rfl⟩ := Expansion.ok_of_andThen he
    cases hb
    refine groupsWritten_append (ih hformed claimed a ha) ?_
    exact groupsWritten_ofMethods fun m hm => ⟨hscope, methods_formed hformed m hm⟩
  | method _ ih => exact ih (forall_mem_cons.1 hx).2
  | embed _ _ ih ih' =>
    obtain ⟨htype, helems⟩ := forall_mem_cons.1 hx
    rw [Element.Formed] at htype
    intro claimed e he
    obtain ⟨a, b, ha, hb, rfl⟩ := Expansion.ok_of_andThen he
    exact groupsWritten_append (ih ⟨.embed, htype⟩ claimed a ha) (ih' helems _ b hb)
  | lookup _ =>
    intro claimed e he
    cases he
  | _ =>
    rintro claimed _ ⟨⟩ group hgroup
    cases hgroup

end Expansion

theorem groupsWritten_expandDeclared (hread : p.IsRead) {root : Option String}
    (hdecl : decl ∈ p.typeDecls) (h : p.expandDeclared fresh root decl claimed = .ok e) :
    p.GroupsWritten e.groups := by
  induction hn : fresh.length using Nat.strongRecOn generalizing fresh root decl claimed e with
  | _ n ih =>
  subst hn
  rw [expandDeclared] at h
  split at h
  · cases h
  · rename_i target elems hinterface
    have htarget := mem_of_interfaceOf hdecl hinterface
    have helems := interfaceOf_written hread hdecl hinterface
    dsimp only at h
    split at h
    · rename_i hmem
      refine (brings_expandEmbedded (.interface elems)).groupsWritten (isScope_of_mem htarget).1 ?_
        ⟨.plain, ?_⟩ claimed e h
      · intro decl' claimed' e' hdecl' h'
        split at h'
        · cases h'
          exact fun _ h => absurd h not_mem_nil
        · exact ih _ (Names.length_without_lt hmem) hdecl' h' rfl
      · rw [TypeExpr.Written, TypeExpr.Formed]
        exact helems
    · cases h

/-- The listed methods of an interface were written in the program. -/
theorem wrote_of_expand (hread : p.IsRead) (hdecl : decl ∈ p.typeDecls)
    (h : p.expand decl claimed = .ok e) : p.GroupsWritten e.groups :=
  groupsWritten_expandDeclared hread hdecl h

/-! ## Method sets -/

def MethodsWritten (p : Program) (methods : List (String × MethodEntry)) : Prop :=
  ∀ m ∈ methods, p.Wrote m.2.scope m.2.sig

/-- An embedded type that is declared in the program, or `error` in a file of it. -/
def IsEmbedded (p : Program) : Embedded → Prop
  | .declared decl => decl ∈ p.typeDecls
  | .error scope => p.IsScope scope

theorem mem_of_followAliasWithin {root : Declared} (hdecl : decl ∈ p.typeDecls)
    (h : p.followAliasWithin hops decl = some root) : root ∈ p.typeDecls := by
  induction hops generalizing decl with
  | zero => cases h
  | succ hops ih =>
    rw [followAliasWithin] at h
    split at h
    · obtain ⟨next, hnext, h⟩ := Option.bind_eq_some_iff.1 h
      exact ih (mem_of_resolveType? (isScope_of_mem hdecl).1 hnext) h
    · cases h
      exact hdecl

theorem isScope_underlyingWithin (hdecl : decl ∈ p.typeDecls) :
    p.IsScope (p.underlyingWithin hops decl).1 := by
  have hscope := (isScope_of_mem hdecl).1
  induction hops generalizing decl with
  | zero => exact hscope
  | succ hops ih =>
    have hstep : ∀ next, p.resolveType? decl.scope decl.spec.type.unparen = some next →
        p.IsScope (p.underlyingWithin hops next).1 := by
      intro next hnext
      have hmem := mem_of_resolveType? hscope hnext
      exact ih hmem (isScope_of_mem hmem).1
    rw [underlyingWithin]
    -- a name, a qualified name and an instantiated type are followed, anything else ends the walk
    split
    iterate 3
      · split
        · exact hstep _ ‹_›
        · exact hscope
    · exact hscope

theorem isEmbedded_of_embeddedType? {embedded : Embedded} (hscope : p.IsScope scope)
    (h : p.embeddedType? scope t = some embedded) : p.IsEmbedded embedded := by
  unfold embeddedType? at h
  split at h
  · rename_i decl hdecl
    obtain ⟨root, hroot, rfl⟩ := Option.map_eq_some_iff.1 h
    exact mem_of_followAliasWithin (mem_of_resolveType? hscope hdecl) hroot
  · split at h
    · split at h
      · cases h
        exact hscope
      · cases h
    · cases h

/-- What is found at a depth was written in the program. -/
structure LevelWritten (p : Program) (level : Level) : Prop where
  methods : p.MethodsWritten level.methods
  next : ∀ embedded ∈ level.next, p.IsEmbedded embedded

theorem LevelWritten.empty : p.LevelWritten .empty :=
  ⟨nofun, nofun⟩

theorem LevelWritten.append {a b : Level} (ha : p.LevelWritten a) (hb : p.LevelWritten b) :
    p.LevelWritten (a.append b) := by
  constructor
  · intro m hm
    rcases mem_append.1 hm with hm | hm
    · exact ha.methods m hm
    · exact hb.methods m hm
  · intro e he
    rcases mem_append.1 he with he | he
    · exact ha.next e he
    · exact hb.next e he

theorem levelWritten_structLevel (hdecl : decl ∈ p.typeDecls) :
    p.LevelWritten (p.structLevel decl) := by
  have hscope : p.IsScope (p.underlying decl).1 := isScope_underlyingWithin hdecl
  unfold structLevel
  split
  · rename_i scope fields heq
    rw [heq] at hscope
    have hfield : ∀ field, p.LevelWritten (p.fieldLevel scope field) := by
      intro field
      unfold fieldLevel
      split
      · exact ⟨nofun, fun e he => isEmbedded_of_embeddedType? hscope (Option.mem_toList.1 he)⟩
      · exact ⟨nofun, nofun⟩
    clear heq
    induction fields with
    | nil => exact .empty
    | cons field fields ih => exact (hfield field).append (ih hscope)
  · exact .empty

theorem declaredMethods_written (hread : p.IsRead) {methods : List (String × MethodEntry)}
    (hdecl : decl ∈ p.typeDecls) (h : p.declaredMethods depth decl = .ok methods) :
    p.MethodsWritten methods := by
  unfold declaredMethods at h
  split at h
  · split at h
    · cases h
    · rename_i e he
      cases h
      intro m hm
      obtain ⟨group, hgroup, hm⟩ := mem_flatMap.1 hm
      obtain ⟨method, hmethod, rfl⟩ := mem_map.1 hm
      exact wrote_of_expand hread hdecl he group hgroup method hmethod
  · cases h
    intro m hm
    obtain ⟨⟨file, func⟩, hfunc, rfl⟩ := mem_map.1 hm
    obtain ⟨file', hfile, hfunc⟩ := mem_flatMap.1 hfunc
    obtain ⟨func', hfunc, heq⟩ := mem_map.1 hfunc
    cases heq
    have hpkg := (isScope_of_mem hdecl).1.package
    exact ⟨⟨hpkg, hfile⟩,
      (SourceFile.func_written (hread _ hpkg _ hfile) (mem_filter.1 hfunc).1).2⟩

theorem levelWritten_declaredLevel (hread : p.IsRead) (hdecl : decl ∈ p.typeDecls)
    (h : p.declaredLevel depth decl = .ok level) : p.LevelWritten level := by
  unfold declaredLevel at h
  split at h
  · rename_i methods hmethods
    cases h
    exact LevelWritten.append ⟨declaredMethods_written hread hdecl hmethods, nofun⟩
      (levelWritten_structLevel hdecl)
  · split at h
    · cases h
    · cases h
      exact .empty

theorem levelWritten_levelOf (hread : p.IsRead) {left : List String}
    (htypes : ∀ e ∈ types, p.IsEmbedded e) (h : p.levelOf depth fresh types = .ok (level, left)) :
    p.LevelWritten level := by
  induction types generalizing fresh level left with
  | nil =>
    cases h
    exact .empty
  | cons e types ih =>
    obtain ⟨he, hrest⟩ := forall_mem_cons.1 htypes
    cases e with
    | error scope =>
      rw [levelOf] at h
      split at h
      · cases h
      · rename_i hlevel
        cases h
        refine LevelWritten.append ⟨fun m hm => ?_, (by simp)⟩ (ih hrest hlevel)
        rw [mem_singleton.1 hm]
        exact ⟨he, errorSignature_formed⟩
    | declared decl =>
      rw [levelOf] at h
      split at h
      · split at h
        · cases h
        · rename_i hfirst
          split at h
          · cases h
          · rename_i hlevel
            cases h
            exact (levelWritten_declaredLevel hread he hfirst).append (ih hrest hlevel)
      · exact ih hrest h

theorem mem_insertEntry {m : String × MethodEntry}
    {entries : List (String × MethodEntry)} :
    m ∈ MethodSet.insertEntry name entry entries ↔ m = (name, entry) ∨ m ∈ entries := by
  induction entries with
  | nil => simp [MethodSet.insertEntry]
  | cons e entries ih =>
    obtain ⟨n, e⟩ := e
    rw [MethodSet.insertEntry]
    split
    · simp
    · simp only [mem_cons, ih]
      tauto

theorem mem_of_unique? (h : level.unique? name = some entry) :
    (name, entry) ∈ level.methods := by
  unfold Level.unique? at h
  split at h
  · rename_i name' entry' heq
    split at h
    · cases h
    · cases h
      have hmem : (name', entry) ∈ level.methods.filter fun m => m.1 == name := by
        rw [heq]
        exact mem_singleton_self _
      rw [mem_filter, beq_iff_eq] at hmem
      obtain ⟨hmem, rfl⟩ := hmem
      exact hmem
  · cases h

theorem methodsWritten_addTo (hlevel : p.MethodsWritten level.methods)
    (hset : p.MethodsWritten set.entries) : p.MethodsWritten (level.addTo hidden set).entries := by
  unfold Level.addTo
  induction Names.ofList (level.methods.map (·.1)) generalizing set with
  | nil => exact hset
  | cons name names ih =>
    rw [foldl_cons]
    refine ih ?_
    split
    · exact hset
    · split
      · rename_i entry hentry
        intro m hm
        rcases mem_insertEntry.1 hm with rfl | hm
        · exact hlevel _ (mem_of_unique? hentry)
        · exact hset m hm
      · exact hset

theorem methodsWritten_methodsFrom (hread : p.IsRead) {result : MethodSet}
    (htypes : ∀ e ∈ types, p.IsEmbedded e)
    (hset : p.MethodsWritten set.entries)
    (h : p.methodsFrom depth fresh hidden set types = .ok result) :
    p.MethodsWritten result.entries := by
  fun_induction methodsFrom p depth fresh hidden set types with
  | case1 => cases h
  | case2 depth fresh hidden set types level left hlevel set' hnext =>
    rw [← Except.ok.inj h]
    exact methodsWritten_addTo (levelWritten_levelOf hread htypes hlevel).methods hset
  | case3 depth fresh hidden set types level left hlevel set' hnext ih =>
    have hwritten := levelWritten_levelOf hread htypes hlevel
    exact ih hwritten.next (methodsWritten_addTo hwritten.methods hset) h

/-- The methods of a method set were written in the program. -/
theorem wrote_of_methodSet (hread : p.IsRead) (hdecl : decl ∈ p.typeDecls)
    (h : p.methodSet decl = .ok set) : p.MethodsWritten set.entries := by
  unfold methodSet at h
  split at h
  · cases h
    exact nofun
  · rename_i root hroot
    refine methodsWritten_methodsFrom hread ?_ (fun m hm => absurd hm not_mem_nil) h
    intro e he
    rw [mem_singleton.1 he]
    exact mem_of_followAliasWithin hdecl hroot

end Program

end Stubwright
