import Stubwright.Proofs.Verbatim
import Stubwright.Stub

/-!
# The tokens of stubs

A stub is a comment, a method with a pointer receiver and a body that is one call.  Below a text, the
tokens of stubs follow those of the text: the line break between them ends the last statement of the
text, and no lexeme goes over it.

* `emits_stubs`: the texts of stubs give their tokens.
-/

namespace Stubwright

open List

variable {spec : TypeSpec}

open Lexeme

/-! ## Receivers -/

/-- A type with the names of its type parameters as arguments. -/
def TypeSpec.receiverBase (spec : TypeSpec) : TypeExpr :=
  match spec.typeParamNames with
  | [] => .name spec.name
  | params => .generic (.name spec.name) (params.map .name)

def TypeSpec.receiverType (spec : TypeSpec) : TypeExpr :=
  .pointer spec.receiverBase

theorem TypeSpec.print_receiverType (spec : TypeSpec) (n : Nat) :
    spec.receiverType.print n = "*" ++ spec.receiver := by
  have hnames : ∀ names : List String, names.map (fun a => (TypeExpr.name a).print n) = names := by
    intro names
    exact map_eq_self fun name _ => by rw [TypeExpr.print]
  rw [receiverType, TypeExpr.print, receiver, receiverBase]
  cases spec.typeParamNames with
  | nil => rw [TypeExpr.print]
  | cons name names =>
    dsimp only
    rw [TypeExpr.print, TypeExpr.print, printTypes_eq, map_map, Function.comp_def, hnames]

theorem TypeSpec.Written.receiverType (h : spec.Written) :
    spec.receiverType.Written .plain := by
  have hname : ∀ {name : String}, isIdentifier name = true → (TypeExpr.name name).Written .plain := by
    intro name hid
    rw [TypeExpr.Written, TypeExpr.Formed]
    exact hid
  rw [TypeSpec.receiverType, TypeExpr.Written, TypeExpr.Formed, TypeSpec.receiverBase]
  have hparams := h.typeParams
  cases hnames : spec.typeParamNames with
  | nil => exact hname h.name
  | cons param params =>
    rw [hnames] at hparams
    dsimp only
    rw [TypeExpr.Formed]
    refine ⟨rfl, hname h.name, by simp, ?_⟩
    rintro a ha
    obtain ⟨n, hn, rfl⟩ := mem_map.1 ha
    exact hname (hparams n hn)

/-! ## Stubs -/

def Form.stubBody : Form :=
  (Form.one .lBrace).seq <| (Form.word "panic").seq <| (Form.one .lParen).seq <|
    (Form.one .stringLit).seq <| (Form.one .rParen).seq <| (Form.one .semi).seq (Form.one .rBrace)

/-- The tokens of a stub. -/
def Form.stub (spec : TypeSpec) (m : Method) : Form :=
  (Form.one .kwFunc).seq <| (Form.within .lParen .rParen spec.receiverType.Spelled).seq <|
    (Form.word m.name).seq <| m.sig.Spelled.seq Form.stubBody

namespace Emits

theorem lineComment {u k : List Char} {b : Bool} (hu : hasBreak u = false)
    (hk : k.head?.any (fun d => !isBreak d) = false) :
    Emits ('/' :: '/' :: u) k b b Form.nothing := by
  intro pos lead
  have hwhile : ((u ++ k).takeWhile fun d => !isBreak d).length = u.length :=
    length_takeWhile_append.2 ⟨by simpa [hasBreak] using hu, hk⟩
  have hscan : scan '/' ('/' :: u ++ k) = .ok (.lineComment, ('/' :: u).length) := by
    rw [cons_append, scan_lineComment, hwhile]
    rfl
  refine ⟨[], pos + Text.byteSize ('/' :: '/' :: u), lead ++ '/' :: '/' :: u, rfl, ?_⟩
  rw [tokensFrom_pass pos lead hscan rfl]
  cases tokensFrom (pos + Text.byteSize ('/' :: '/' :: u)) (lead ++ '/' :: '/' :: u) b k <;> rfl

theorem stubBody {k : List Char} {b : Bool} :
    Emits "\x7b\n\tpanic(\x22unimplemented\x22)\n\x7d".toList k b true Form.stubBody := by
  have htext : "\x7b\n\tpanic(\x22unimplemented\x22)\n\x7d".toList
      = "\x7b".toList ++ (['\n'] ++ (['\t'] ++ ("panic".toList ++ ("(".toList ++
        ("\x22unimplemented\x22".toList ++ (")".toList ++ (['\n'] ++ "\x7d".toList))))))) := by
    decide
  have hstring : ∀ k, Emits "\x22unimplemented\x22".toList k false true (.one .stringLit) := by
    intro k
    exact (Emits.token rfl (scan_string rfl)).mono fun _ => Form.one_of_text
  rw [htext]
  refine (Emits.solitary "\x7b" (by decide)).append (lineGoesOn.skip ((blanks (by decide)).skip ?_))
  refine (Emits.identifier (by decide) rfl).append ((Emits.solitary "(" (by decide)).append ?_)
  exact (hstring _).append ((Emits.solitary ")" (by decide)).append
    (lineEnd.append (.solitary "\x7d" (by decide))))

end Emits

theorem hasBreak_of_isIdentifier {name : String} (h : isIdentifier name = true) :
    hasBreak name.toList = false := by
  have hbreak : ∀ c, isBreak c = true → startsIdent c = false ∧ continuesIdent c = false := by
    intro c hc
    rcases (by simpa [isBreak] using hc : c = '\n' ∨ c = '\x0d') with rfl | rfl <;> decide
  refine any_eq_false.2 fun d hd hdbreak => ?_
  obtain ⟨hstart, hcontinue⟩ := hbreak d hdbreak
  unfold isIdentifier at h
  split at h
  · cases h
  · rename_i c u hname
    rw [hname] at hd
    simp only [Bool.and_eq_true, all_eq_true] at h
    rcases mem_cons.1 hd with rfl | hd
    · exact absurd h.1.1 (by simp [hstart])
    · exact absurd (h.1.2 d hd) (by simp [hcontinue])

/-- What a stub is made of: its name is an identifier and its signature can be written down. -/
structure Method.Formed (m : Method) : Prop where
  name : isIdentifier m.name = true
  sig : m.sig.Formed identified

/-- The text of a stub gives the tokens of one, and a line break ends it. -/
theorem emits_renderStub {m : Method} {interface : String} (hspec : spec.Written)
    (hm : m.Formed) (hinterface : isIdentifier interface = true) {k : List Char} :
    Emits (renderStub m spec.receiver interface).toList k false false
      ((Form.stub spec m).seq (Form.one .semi)) := by
  have htext : (renderStub m spec.receiver interface).toList
      = '/' :: '/' :: (" ".toList ++ (m.name.toList ++ (" implements ".toList ++ interface.toList)))
        ++ (['\n'] ++ (("func".toList ++ (" ".toList ++
          (("(".toList ++ ((spec.receiverType.print 0).toList ++ ")".toList)) ++ (" ".toList ++
          (m.name.toList ++ ((m.sig.print 0).toList ++ (" ".toList ++
          "\x7b\n\tpanic(\x22unimplemented\x22)\n\x7d".toList))))))) ++ ['\n'])) := by
    rw [spec.print_receiverType]
    simp [renderStub, Signature.toText]
  rw [htext]
  have hcomment : hasBreak (" ".toList ++ (m.name.toList ++ (" implements ".toList ++ interface.toList)))
      = false := by
    have hfixed : hasBreak " ".toList = false ∧ hasBreak " implements ".toList = false := by decide
    rw [hasBreak_append, hasBreak_append, hasBreak_append, hfixed.1, hfixed.2,
      hasBreak_of_isIdentifier hm.name, hasBreak_of_isIdentifier hinterface]
    rfl
  have hreceiver : ∀ b k, Emits ("(".toList ++ ((spec.receiverType.print 0).toList ++ ")".toList)) k b
      true (.within .lParen .rParen spec.receiverType.Spelled) := by
    intro b k
    exact .within "(" ")" (by decide) (by decide)
      (spec.receiverType.emitsSpelled .plain hspec.receiverType 0 _ _ (endsWord_append rfl))
  have hsig : ∀ b k, endsWord k = true → Emits (m.sig.print 0).toList k b true m.sig.Spelled := by
    intro b k hk
    exact Signature.emits_print ⟨fun p _ => p.type.emitsSpelled, fun p _ => p.type.emitsSpelled⟩
      hm.sig 0 hk
  refine (Emits.lineComment hcomment rfl).skip (Emits.lineGoesOn.skip (.append ?_ .lineEnd))
  refine (Emits.keyword (by decide) (endsWord_append rfl)).append (Emits.space.skip ?_)
  refine (hreceiver _ _).append (Emits.space.skip ?_)
  refine (Emits.identifier hm.name ?_).append
    ((hsig _ _ (endsWord_append rfl)).append (Emits.space.skip .stubBody))
  rw [append_assoc]
  exact m.sig.endsWord_print 0 _

theorem Form.seq_assoc {F G H : Form} {ts : List Token} (h : ((F.seq G).seq H) ts) :
    (F.seq (G.seq H)) ts := by
  obtain ⟨-, cs, ⟨as, bs, has, hbs, rfl⟩, hcs, rfl⟩ := h
  exact ⟨as, bs ++ cs, has, ⟨bs, cs, hbs, hcs, rfl⟩, append_assoc as bs cs⟩

/-- The texts of stubs with an empty line between them give the tokens of stubs, each ended by a
semicolon. -/
theorem emits_stubs {stubs : List Method} {interface : String} (hspec : spec.Written)
    (hstubs : ∀ m ∈ stubs, m.Formed) (hinterface : isIdentifier interface = true) {k : List Char} :
    Emits (String.intercalate "\n" (stubs.map fun m => renderStub m spec.receiver interface)).toList k
      false false (Form.ended (stubs.map (Form.stub spec))) := by
  induction stubs with
  | nil => exact .nil
  | cons m stubs ih =>
    obtain ⟨hm, hstubs⟩ := forall_mem_cons.1 hstubs
    rw [map_cons]
    cases stubs with
    | nil =>
      rw [map_nil, String.intercalate_singleton, ← append_nil (renderStub ..).toList]
      exact ((emits_renderStub hspec hm hinterface).append Emits.nil).mono fun _ => Form.seq_assoc
    | cons m' stubs =>
      rw [map_cons, String.intercalate_cons_cons, String.toList_append, String.toList_append,
        append_assoc]
      exact ((emits_renderStub hspec hm hinterface).append
        (Emits.lineGoesOn.skip (ih hstubs))).mono fun _ => Form.seq_assoc

/-! ### Stubs in a new layout -/

theorem TypeSpec.hasTexts_receiverType (spec : TypeSpec) (length tag : String → Prop) :
    spec.receiverType.HasTexts length tag := by
  have hname : ∀ name, (TypeExpr.name name).HasTexts length tag := by
    intro name
    rw [TypeExpr.HasTexts]
    trivial
  rw [receiverType, TypeExpr.HasTexts, receiverBase]
  cases spec.typeParamNames with
  | nil => exact hname spec.name
  | cons param params =>
    dsimp only
    rw [TypeExpr.HasTexts]
    refine ⟨hname spec.name, fun a ha => ?_⟩
    obtain ⟨n, -, rfl⟩ := mem_map.1 ha
    exact hname n

theorem Form.stable_stubs {stubs : List Method} (hspec : spec.Written)
    (hstubs : ∀ m ∈ stubs, m.Formed) (htexts : ∀ m ∈ stubs, m.sig.HasTexts IsLine NoReturn) :
    (Form.ended (stubs.map (Form.stub spec))).Stable := by
  refine Form.stable_ended fun F hF => ?_
  obtain ⟨m, hm, rfl⟩ := mem_map.1 hF
  have hreceiver : spec.receiverType.Spelled.Stable :=
    spec.receiverType.spelledStably .plain hspec.receiverType (spec.hasTexts_receiverType ..)
  have hsig : m.sig.Spelled.Stable :=
    Signature.stable_spelled ⟨fun p _ => p.type.spelledStably, fun p _ => p.type.spelledStably⟩
      (hstubs m hm).sig (htexts m hm)
  have hword : ∀ name, (Form.word name).Stable := fun name => Form.stable_text (by decide)
  refine Form.stable_one.seq (hreceiver.within.seq ((hword m.name).seq (hsig.seq ?_)))
  exact Form.stable_one.seq ((hword "panic").seq (Form.stable_one.seq (Form.stable_one.seq
    (Form.stable_one.seq (Form.stable_one.seq Form.stable_one)))))

/-! ## A text below another one -/

namespace Lexeme

/-- The entries of a text go before those of a text below it. -/
theorem Lexes.above {start open_ : Bool} {lead : List Char} {m : List Marked} {es : List Entry}
    (h : Lexes start open_ lead m es) (m' : List Marked) :
    ∃ lead', ∀ es', Lexes false false lead' m' es' →
      Lexes start open_ lead (m ++ ('\n', false) :: m') (es ++ es') := by
  induction h with
  | @nil start open_ lead =>
    refine ⟨leadAfter open_ lead ['\n'], fun es' hes' => ?_⟩
    have hrest : Lexes false (open_ && !hasBreak ['\n']) (leadAfter open_ lead ['\n']) m' es' := by
      rw [hasBreak_cons rfl, Bool.not_true, Bool.and_false]
      exact hes'
    have hbelow : Lexes start open_ lead _ _ := .newline rfl hrest
    rw [insertedBy_cons rfl] at hbelow
    exact hbelow
  | @skip start open_ lead text m es htext hrest ih =>
    obtain ⟨lead', hbelow⟩ := ih
    refine ⟨lead', fun es' hes' => ?_⟩
    rw [append_assoc, append_assoc]
    refine .skip ?_ (hbelow es' hes')
    generalize hk : chars m = k at htext
    cases htext with
    | blank hc => exact .blank hc
    | newline hc => exact .newline hc
    | mark hstart => exact .mark hstart
    | lineComment hu hend =>
      refine .lineComment hu ?_
      cases m with
      | nil => rfl
      | cons x m =>
        rw [← hk] at hend
        exact hend
    | blockComment hu => exact .blockComment hu
  | @token start open_ lead v c kind m es hscan hrest ih =>
    obtain ⟨lead', hbelow⟩ := ih
    refine ⟨lead', fun es' hes' => ?_⟩
    rw [append_assoc, cons_append]
    refine .token ?_ (hbelow es' hes')
    rw [← append_nil (chars m)] at hscan
    rw [chars_append]
    exact scan_token_stop hscan (by simp) rfl

/-- A text with another one below it is cut into pieces with the entries of both. -/
theorem exists_cut_below {cs k : List Char} {ps qs : List Piece} (h : Cut true cs ps)
    (hk : Cut false k qs) (lead : List Char) :
    ∃ ps' lead', Cut true (cs ++ '\n' :: k) ps' ∧
      entries lead false ps' = entries lead false ps ++ entries lead' false qs := by
  obtain ⟨lead', hbelow⟩ := (lexes_of_cut h lead false).above (paint qs)
  obtain ⟨ps', hcut, -, hentries⟩ := (hbelow _ (lexes_of_cut hk lead' false)).exists_cut
  rw [chars_append, chars_cons, chars_paint, chars_paint, h.text_eq, hk.text_eq] at hcut
  exact ⟨ps', lead', hcut, hentries⟩

end Lexeme

end Stubwright
