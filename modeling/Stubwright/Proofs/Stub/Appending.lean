import Stubwright.Proofs.Stub.Reading

/-!
# Stubs do not disturb a file

Stubs are put behind the text of a file, and the whole is laid out anew.  What is read from the
outcome is the file, with one method for each stub behind its declarations.

* `parse_withStubs`: a file with stubs is read as the file and the stubs.
-/

namespace Stubwright

open List

open Lexeme

/-! ## The tokens of a text with another one below it -/

namespace Lexeme

/-- Another layout before the first entry changes what stands before it and nothing else. -/
theorem exists_entries_cons {open_ : Bool} {ps : List Piece} {lead : List Char} {e : Entry}
    {es : List Entry} (h : entries lead open_ ps = e :: es) (lead' : List Char) :
    ∃ e', entries lead' open_ ps = e' :: es ∧ e'.kind = e.kind := by
  rcases entries_cases open_ ps with hnil | ⟨kind, skipped, text, es', hcons⟩
  · rw [hnil] at h
    cases h
  · rw [hcons] at h
    obtain ⟨rfl, rfl⟩ := List.cons.inj h
    exact ⟨_, hcons lead', rfl⟩

/-- In any layout of a text with another one below it, the tokens of the one stand before those of the
other.  Of the first token only the kind is kept. -/
theorem exists_tokens_below {cs k : List Char} {ps qs : List Piece} {t : Token} {ts : List Token}
    (hcut : Cut true cs ps) (hts : tokensOf 0 [] false ps = t :: ts) (hk : Cut false k qs) :
    ∃ ps' lead, Cut true (cs ++ '\n' :: k) ps' ∧ ∀ xs,
      List.Forall₂ (Entry.Relaid Layout.unixLines) (entries ['\n'] false ps')
        (entries ['\n'] false xs) →
      ∃ t' ts' us', tokensOf 0 [] false xs = t' :: (ts' ++ us') ∧ t'.kind = t.kind ∧
        List.Forall₂ (fun t t' => Entry.Relaid Layout.unixLines t.entry t'.entry) ts ts' ∧
        List.Forall₂ (fun t t' => Entry.Relaid Layout.unixLines t.entry t'.entry)
          (tokensOf 1 lead false qs) us' := by
  obtain ⟨ps', lead, hcut', hentries⟩ := exists_cut_below hcut hk ['\n']
  refine ⟨ps', lead, hcut', fun xs hxs => ?_⟩
  have hfirst : entries [] false ps = t.entry :: ts.map Token.entry := by
    rw [← map_entry_tokensOf ps 0, hts, map_cons]
  obtain ⟨e, hfirst, hkind⟩ := exists_entries_cons hfirst ['\n']
  rw [hfirst, ← map_entry_tokensOf qs 1 lead, cons_append, ← map_append] at hentries
  obtain ⟨e', hboth, hkind'⟩ := exists_entries_cons hentries []
  rcases Layout.relaid_tokensOf hxs with ⟨hnil, -⟩ | ⟨u, us, t', us', hcons, hcons', hkind₀, -, hrest⟩
  · rw [← map_entry_tokensOf ps' 0, hnil] at hboth
    cases hboth
  · rw [← map_entry_tokensOf ps' 0, hcons, map_cons] at hboth
    obtain ⟨rfl, hus⟩ := List.cons.inj hboth
    have hrest' : List.Forall₂ (Entry.Relaid Layout.unixLines) (us.map Token.entry)
        (us'.map Token.entry) := by
      rw [forall₂_map_left_iff, forall₂_map_right_iff]
      exact hrest
    rw [hus, forall₂_map_left_iff, forall₂_map_right_iff] at hrest'
    obtain ⟨ts', bs', rfl, hts', hbs'⟩ := Form.exists_append_of_forall₂ hrest'
    exact ⟨t', ts', bs', hcons', hkind₀.trans (hkind'.trans hkind), hts', hbs'⟩

/-- The tokens of a text that gives a form, wherever the text stands. -/
theorem tokensOf_of_emits {k : List Char} {F : Form} (h : Emits k [] false false F) :
    ∃ qs, Cut false k qs ∧ ∀ lead, F (tokensOf 1 lead false qs) ∧
      ∀ t ∈ tokensOf 1 lead false qs, t.IsRead := by
  have hok : ∀ lead, ∃ us, tokensFrom 1 lead false k = .ok us ∧ F us := by
    intro lead
    obtain ⟨us, pos, lead', hF, hus⟩ := h 1 lead
    have hnil : tokensFrom pos lead' false [] = .ok [] := tokensFrom_of_cut .nil rfl lead' false
    rw [append_nil, hnil] at hus
    exact ⟨us, hus.trans (congrArg Except.ok (append_nil us)), hF⟩
  obtain ⟨us, hus, -⟩ := hok []
  obtain ⟨qs, hcut, -⟩ := tokensFrom_eq_ok_iff.1 hus
  refine ⟨qs, hcut, fun lead => ?_⟩
  have htokens : tokensFrom 1 lead false k = .ok (tokensOf 1 lead false qs) :=
    tokensFrom_of_cut hcut rfl lead false
  obtain ⟨us, hus, hF⟩ := hok lead
  obtain rfl : us = tokensOf 1 lead false qs := Except.ok.inj (hus.symm.trans htokens)
  refine ⟨hF, fun t ht => ?_⟩
  obtain ⟨as, bs, hsplit⟩ := append_of_mem ht
  have hlexed : Lexed (as ++ t :: bs) := ⟨1, lead, false, k, hsplit ▸ htokens⟩
  exact hlexed.append.isRead

end Lexeme

/-! ## Files with stubs -/

/-- A file `f'` is the file `f` with a method for each stub behind its declarations, and only the places
of its parts may be others. -/
structure SourceFile.WithStubs (f : SourceFile) (spec : TypeSpec) (stubs : List Method)
    (f' : SourceFile) : Prop where
  package : f'.package = f.package
  imports : f'.imports.map ImportDecl.unplaced = f.imports.map ImportDecl.unplaced
  decls : ∃ (ds : List Decl) (methods : List FuncDecl), f'.decls = ds ++ methods.map .func ∧
    ds.map Decl.unplaced = f.decls.map Decl.unplaced ∧
    List.Forall₂ (FuncDecl.IsStub spec) stubs methods

theorem flatLength_eq {s s' : String} (h : SameLead s.toList s'.toList) :
    flatLength s' = flatLength s := by
  rcases h with heq | ⟨hbreak, hbreak'⟩
  · rw [String.toList_injective heq]
  · have hno : ¬IsLine s := by simp [IsLine, hbreak]
    have hno' : ¬IsLine s' := by simp [IsLine, hbreak']
    rw [flatLength, flatLength, if_neg hno, if_neg hno']

def Pairing.newLayout (more : List Token) : Pairing where
  Alike := Token.Alike
  more := more
  view := flatLength
  kind_eq h := h.kind
  text_eq h := h.text
  view_eq h hsemi := flatLength_eq (Token.sameLead_writtenText h hsemi)

namespace Parser

/-- A file is read from its tokens in a new layout with those of stubs behind them, with a method for
each stub. -/
theorem exists_file {f : SourceFile} {spec : TypeSpec} {stubs : List Method} {t t' : Token}
    {ts ts' us : List Token} {s : Cursor} (hfile : file ⟨t :: ts, 0⟩ = .ok (f, s))
    (hended : ∀ u ∈ (t :: ts).getLast?, u.kind = .semi) (hkind : t'.kind = t.kind)
    (hts : List.Forall₂ Token.Alike ts ts')
    (hstubs : ∀ m ∈ stubs, m.Formed ∧ m.sig.isRegular = true)
    (hus : Form.ended (stubs.map (Form.stub spec)) us)
    (hlengths : ∀ d ∈ f.decls, d.HasTexts IsLine anyTag) :
    ∃ f' s', file ⟨t' :: (ts' ++ us), 0⟩ = .ok (f', s') ∧ f.WithStubs spec stubs f' := by
  have hbeside : Cursor.Beside (.newLayout us) ⟨ts, t.stop⟩ ⟨ts' ++ us, t'.stop⟩ := by
    refine ⟨⟨ts', rfl, hts⟩, fun _ u hu => hended u ?_⟩
    exact mem_getLast?_cons hu
  obtain ⟨span, imports, k, ds, b, hrest, hk, himports, hds⟩ :=
    follows_file (blocks_of_stubs hus) hkind hbeside hfile 0
  obtain ⟨_, b', hrounds, methods, rfl, hmethods⟩ := yields_stubs hstubs hus hk ds b
  refine ⟨⟨f.package, span, imports, ds ++ methods.map .func⟩, ⟨[], b'⟩, ?_, rfl, himports, ds, methods,
    rfl, ?_, hmethods⟩
  · rw [hrest]
    exact bind_of_ok hrounds
  · exact map_eq_of_map_eq hds fun d hd d' => Decl.unplaced_eq_of_withLengths (hlengths d hd)

end Parser

/-! ## Appending stubs -/

theorem exists_endLine_append (text k : List Char) :
    ∃ k', (k' = k ∨ k' = '\n' :: k) ∧ endLine text ++ '\n' :: k = text ++ '\n' :: k' := by
  rw [endLine]
  split
  · exact ⟨k, .inl rfl, rfl⟩
  · exact ⟨'\n' :: k, .inr rfl, by simp⟩

/-- A signature that is read from a text: of a function type, of a method of a declared interface, or of
a declared function. -/
inductive Signature.IsRead : Signature → Prop
  | type {text : String} {sig : Signature} (h : TypeExpr.parse text = .ok (.func sig)) : IsRead sig
  | method {text name : String} {f : SourceFile} {spec : TypeSpec} {elems : List Element}
      {sig : Signature} (h : SourceFile.parse text = .ok f) (hspec : spec ∈ f.typeSpecs)
      (htype : spec.type = .interface elems) (hsig : .method name sig ∈ elems) : IsRead sig
  | func {text : String} {f : SourceFile} {d : FuncDecl} (h : SourceFile.parse text = .ok f)
      (hd : d ∈ f.funcs) : IsRead d.sig

theorem Signature.IsRead.written {sig : Signature} (h : sig.IsRead) :
    (TypeExpr.func sig).Written .plain := by
  rw [TypeExpr.Written, TypeExpr.Formed]
  cases h with
  | type h =>
    have hwritten := TypeExpr.written_of_parse h
    rw [TypeExpr.Written, TypeExpr.Formed] at hwritten
    exact hwritten
  | method h hspec htype hsig =>
    have hwritten := (SourceFile.typeSpec_written h hspec).type
    rw [htype, TypeExpr.Written, TypeExpr.Formed] at hwritten
    have helem := hwritten _ hsig
    rw [Element.Formed] at helem
    exact helem.2
  | func h hd => exact (SourceFile.func_written h hd).2

/-- What may become a stub: its name is an identifier, and its signature was read from a text, maybe
with other references put into it, prints unambiguously, and has no length with a line break and no
raw tag with a carriage return. -/
structure Method.IsReady (m : Method) : Prop where
  name : isIdentifier m.name = true
  read : ∃ sig : Signature, sig.IsRead ∧
    (TypeExpr.func m.sig).skeleton = (TypeExpr.func sig).skeleton ∧
    ∀ l ∈ (TypeExpr.func m.sig).references,
      l ∈ (TypeExpr.func sig).references ∨ l.hasIdentifiers = true
  regular : m.sig.isRegular = true
  texts : m.sig.HasTexts IsLine NoReturn

theorem Method.IsReady.formed {m : Method} (h : m.IsReady) : m.Formed := by
  obtain ⟨sig, hread, hskeleton, hreferences⟩ := h.read
  have hwritten : (TypeExpr.func m.sig).Written .plain := hread.written.replace hskeleton hreferences
  rw [TypeExpr.Written, TypeExpr.Formed] at hwritten
  exact ⟨h.name, hwritten⟩

section

variable {spec : TypeSpec} {stubs : List Method} {ts : List Token}

/-- A file with stubs below its text is read in every layout that keeps the tokens. -/
theorem SourceFile.exists_parse_below {text : String} {f : SourceFile} {k : List Char}
    (hread : SourceFile.parse text = .ok f) (htokens : tokenize text.toList = .ok ts)
    (hended : ∀ t ∈ ts.getLast?, t.kind = .semi)
    (hlengths : ∀ d ∈ f.decls, d.HasTexts IsLine anyTag)
    (hraw : ∀ t ∈ ts, t.kind = .rawStringLit → '\x0d' ∉ t.text.toList) (hspec : spec.Written)
    (hstubs : ∀ m ∈ stubs, m.IsReady)
    (hk : Emits k [] false false (Form.ended (stubs.map (Form.stub spec)))) :
    ∃ ps, Cut true (text.toList ++ '\n' :: k) ps ∧ ∀ cs qs, Cut true cs qs →
      List.Forall₂ (Entry.Relaid Layout.unixLines) (entries ['\n'] false ps)
        (entries ['\n'] false qs) →
      ∃ f', SourceFile.parse (String.ofList cs) = .ok f' ∧ f.WithStubs spec stubs f' := by
  obtain ⟨_, s, htokens', hfile⟩ := Parser.run_ok hread
  cases Except.ok.inj (htokens.symm.trans htokens')
  obtain ⟨ps, hcut, hps⟩ := tokenize_eq_ok_iff.1 htokens
  cases ts with
  | nil => cases hfile
  | cons t ts =>
    obtain ⟨qs, hqs, hstub⟩ := tokensOf_of_emits hk
    obtain ⟨ps', lead, hcut', hbelow⟩ := exists_tokens_below hcut hps.symm hqs
    refine ⟨ps', hcut', fun cs xs hcs hxs => ?_⟩
    obtain ⟨t', ts', us', hxs, hkind, hts', hus'⟩ := hbelow xs hxs
    have hplain : ∀ u ∈ ts, u.IsRead ∧ (u.kind = .rawStringLit → '\x0d' ∉ u.text.toList) := by
      intro u hu
      have hmem := mem_cons_of_mem t hu
      exact ⟨isRead_of_tokenize htokens hmem, hraw u hmem⟩
    have halike : List.Forall₂ Token.Alike ts ts' := by
      refine ((forall₂_and_left ..).2 ⟨hplain, hts'⟩).imp ?_
      rintro u u' ⟨⟨hu, hraw⟩, hrelaid⟩
      exact Token.Relaid.alike ⟨hu, hrelaid⟩ hraw
    have hus : Form.ended (stubs.map (Form.stub spec)) us' :=
      Form.stable_stubs hspec (fun m hm => (hstubs m hm).formed) (fun m hm => (hstubs m hm).texts) _ _
        (hstub lead).1 (((forall₂_and_left ..).2 ⟨(hstub lead).2, hus'⟩).imp fun u u' hu =>
          ⟨hu.1, hu.2⟩)
    obtain ⟨f', s', hfile', hwith⟩ := Parser.exists_file hfile hended hkind halike
      (fun m hm => ⟨(hstubs m hm).formed, (hstubs m hm).regular⟩) hus hlengths
    refine ⟨f', ?_, hwith⟩
    rw [SourceFile.parse, String.toList_ofList, Parser.run_eq (tokenize_eq_ok_iff.2 ⟨xs, hcs, rfl⟩), hxs,
      hfile']
    rfl

end

namespace PackageFile

variable {dest : PackageFile} {spec : TypeSpec} {interface : String} {stubs : List Method}
  {table : ImportTable}

/-- Without new imports, the stubs go below the text as it is. -/
theorem draft_eq (dest : PackageFile) (spec : TypeSpec) (interface : String) (stubs : List Method)
    (htable : table.added = []) :
    ∃ imp, dest.draft spec interface stubs table = .ok imp ∧
      imp.fileContent = String.ofList (endLine dest.text.toList ++ '\n' ::
        (String.intercalate "\n" (stubs.map fun m => renderStub m spec.receiver interface)).toList) := by
  have hedits : Edit.applyAll dest.text.toList
      (dest.source.importEdits dest.text.toList (ImportTable.infos table.added)) = .ok dest.text.toList := by
    rw [htable]
    simp [ImportTable.infos, SourceFile.importEdits, Edit.applyAll, Edit.firstOverlap?, Edit.splice]
  rw [draft, hedits]
  exact ⟨_, rfl, rfl⟩

/-- **Stubs do not disturb a file.**  Put stubs for a type of a file behind the file, whose last token
is a semicolon, without new imports.  If no length in the file or the stubs has a line break, no raw
literal has a carriage return, and the signatures print unambiguously, then this succeeds, and what is
read from the outcome is the file with a method for each stub. -/
theorem parse_withStubs {ts : List Token} (hread : SourceFile.parse dest.text = .ok dest.source)
    (htokens : tokenize dest.text.toList = .ok ts) (hended : ∀ t ∈ ts.getLast?, t.kind = .semi)
    (hspec : spec ∈ dest.source.typeSpecs) (hinterface : isIdentifier interface = true)
    (hstubs : ∀ m ∈ stubs, m.IsReady) (htable : table.added = [])
    (hlengths : ∀ d ∈ dest.source.decls, d.HasTexts IsLine anyTag)
    (hraw : ∀ t ∈ ts, t.kind = .rawStringLit → '\x0d' ∉ t.text.toList) :
    ∃ imp file, dest.withStubs spec interface stubs table = .ok imp ∧
      SourceFile.parse imp.fileContent = .ok file ∧ dest.source.WithStubs spec stubs file := by
  have hwritten : spec.Written := SourceFile.typeSpec_written hread hspec
  have hemits := emits_stubs (k := []) hwritten (fun m hm => (hstubs m hm).formed) hinterface
  obtain ⟨imp, hdraft, hcontent⟩ := draft_eq dest spec interface stubs htable
  obtain ⟨k, hk, hdown⟩ := exists_endLine_append dest.text.toList
    (String.intercalate "\n" (stubs.map fun m => renderStub m spec.receiver interface)).toList
  have hk' : Emits k [] false false (Form.ended (stubs.map (Form.stub spec))) := by
    rcases hk with rfl | rfl
    · exact hemits
    · exact Emits.lineGoesOn.skip hemits
  obtain ⟨ps, hcut, hparse⟩ := SourceFile.exists_parse_below hread htokens hended hlengths hraw hwritten
    hstubs hk'
  -- the draft with short line ends is read, so it is laid out, and then it is read again
  obtain ⟨ps₁, hcut₁, hlines⟩ := Layout.exists_cut_unixLines hcut ['\n']
  obtain ⟨ps₂, hcut₂, -, htidy⟩ := Layout.exists_cut_tidy hcut₁
  obtain ⟨file₁, hparse₁, -⟩ := hparse _ ps₁ hcut₁ hlines
  obtain ⟨file₂, hparse₂, hwith⟩ := hparse _ ps₂ hcut₂ (forall₂_relaid_trans hlines htidy)
  have hformat : Layout.format imp.fileContent =
      .ok (String.ofList (chars (Layout.tidy .top [] (paint ps₁)))) := by
    refine Layout.format_eq_ok_iff.2 ?_
    rw [hcontent, hdown, String.toList_ofList]
    exact ⟨⟨file₁, hparse₁⟩, ps₁, hcut₁, rfl⟩
  refine ⟨{ imp with fileContent := String.ofList (chars (Layout.tidy .top [] (paint ps₁))) }, file₂, ?_,
    hparse₂, hwith⟩
  simp only [withStubs, hdraft, bind, Except.bind, hformat]

end PackageFile

/-- A type with parameters. -/
def pairSpec : TypeSpec where
  name := "T"
  span := ⟨33, 67⟩
  typeParams := [⟨["K", "V"], .name "any"⟩]
  isAlias := false
  type := .struct [⟨["r"], .qualified "io" "Reader", none⟩]

/-- A file with long line ends that ends in a comment. -/
def pairFile : PackageFile where
  path := "a.go"
  text := "package a\x0d\n\x0d\nimport \x22io\x22\x0d\n\x0d\ntype T[K, V any] struct \x7b r io.Reader \x7d // end"
  source := {
    package := "a"
    packageSpan := ⟨0, 9⟩
    imports := [⟨⟨13, 24⟩, none, none, [⟨none, "io", ⟨20, 24⟩⟩]⟩]
    decls := [.types ⟨28, 67⟩ [pairSpec]] }

/-- A signature with a length and a value of some type. -/
def lookupSignature (value : TypeExpr) : Signature :=
  ⟨[⟨["keys"], .array "2" (.name "K")⟩, ⟨["value"], value⟩], [⟨["err"], .name "error"⟩]⟩

/-- A stub with another type in its signature than the one that was read, for a type with parameters. -/
theorem PackageFile.parse_withStubs_pairFile :
    ∃ imp file, pairFile.withStubs pairSpec "I" [⟨"M", lookupSignature (.qualified "io" "Writer")⟩]
        (.ofFile pairFile.source) = .ok imp ∧
      SourceFile.parse imp.fileContent = .ok file ∧
      pairFile.source.WithStubs pairSpec [⟨"M", lookupSignature (.qualified "io" "Writer")⟩] file := by
  have hread : SourceFile.parse pairFile.text = .ok pairFile.source := by decide +kernel
  have hsig : TypeExpr.parse "func(keys [2]K, value V) (err error)"
      = .ok (.func (lookupSignature (.name "V"))) := by decide +kernel
  obtain ⟨ts, -, htokens, -⟩ := Parser.run_ok hread
  have hplain : (tokenize pairFile.text.toList).toOption.all (fun ts =>
      ts.getLast?.all (·.kind == .semi) && ts.all (·.kind != .rawStringLit)) = true := by decide +kernel
  rw [htokens, Except.toOption, Option.all_some, Bool.and_eq_true, all_eq_true] at hplain
  have hready : Method.IsReady ⟨"M", lookupSignature (.qualified "io" "Writer")⟩ := by
    refine ⟨by decide +kernel, ⟨_, .type hsig, by decide +kernel, by decide +kernel⟩,
      by decide +kernel, ?_⟩
    have hline : IsLine "2" := by decide
    simp [lookupSignature, Signature.HasTexts, Param.HasTexts, TypeExpr.HasTexts, hline]
  refine PackageFile.parse_withStubs hread htokens (by simpa [Option.all_eq_true] using hplain.1) mem_cons_self
    (by decide +kernel) (by simpa using hready) (by decide +kernel) ?_ ?_
  · simp [pairFile, pairSpec, Decl.HasTexts, TypeSpec.HasTexts, TypeExpr.HasTexts, Field.HasTexts]
  · intro t ht hraw
    have hno := hplain.2 t ht
    rw [hraw] at hno
    cases hno

/-- A file with one type. -/
def plainFile : PackageFile where
  path := "a.go"
  text := "package a\n\ntype T struct\x7b\x7d\n"
  source := {
    package := "a"
    packageSpan := ⟨0, 9⟩
    imports := []
    decls := [.types ⟨11, 26⟩ [⟨"T", ⟨16, 26⟩, [], false, .struct []⟩]] }

/-- A parameter whose type has a length with crossed brackets in it. -/
def crossedSignature : Signature :=
  ⟨[⟨["x"], .struct [⟨["a"], .func ⟨[], [⟨[], .generic (.name "G") [crossedLength]⟩]⟩, none⟩]⟩], []⟩

/-- Where brackets in a length behind a name cross, a stub need not be read as a method, and then the
file with the stub is not laid out. -/
theorem PackageFile.withStubs_ne_ok_crossedLength :
    SourceFile.parse plainFile.text = .ok plainFile.source ∧
      TypeExpr.parse "func(x struct\x7ba func() (G[struct\x7bb [struct\x7bc [)]K\x7d])\x7d)"
        = .ok (.func crossedSignature) ∧
      (∀ u ∈ ((TypeExpr.func crossedSignature).walk enterAll).nodes, u.isEllipsis = false) ∧
      crossedSignature.HasTexts IsLine NoReturn ∧
      ∃ spec ∈ plainFile.source.typeSpecs, ∀ imp,
        plainFile.withStubs spec "I" [⟨"M", crossedSignature⟩] .empty ≠ .ok imp := by
  refine ⟨by decide +kernel, by decide +kernel, by decide +kernel, ?_, _, mem_cons_self,
    fun imp himp => ?_⟩
  · have hline : IsLine "struct\x7bc [)" := by decide
    simp [crossedSignature, crossedLength, Signature.HasTexts, Param.HasTexts, TypeExpr.HasTexts,
      Field.HasTexts, hline]
  · have hnone : (plainFile.withStubs ⟨"T", ⟨16, 26⟩, [], false, .struct []⟩ "I"
        [⟨"M", crossedSignature⟩] .empty).toOption = none := by
      decide +kernel
    rw [himp] at hnone
    cases hnone

end Stubwright
