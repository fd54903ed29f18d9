import Stubwright.ModFile.Parse
import Stubwright.Proofs.Lines

/-!
# Blocks and comments of a module file

A block is a way to write its verb once, and a comment is nothing: neither changes what a module file
says.

* `parse_blocks_comments`: blocks and comments are ways to write.
-/

namespace Stubwright.ModFile

open List

variable {eol : List Char}

open Text

/-! ## Fields -/

section fields

variable {c : Char} {cs : List Char}

theorem fields?_gap (hc : isGap c = true) (cs : List Char) : fields? (c :: cs) = fields? cs := by
  rw [fields?, if_pos hc]

theorem isGap_eq_false_of_quote (hc : c = '\x22' ∨ c = '\x60') : isGap c = false := by
  rcases hc with rfl | rfl <;> rfl

theorem fields?_quote (hc : c = '\x22' ∨ c = '\x60') (cs : List Char) :
    fields? (c :: cs) = (closeQuote? c cs).bind fun field =>
      (fields? field.2).map (String.ofList field.1 :: ·) := by
  rw [fields?, if_neg (by simp [isGap_eq_false_of_quote hc]), if_pos (by simpa using hc)]
  split <;> simp [*]

theorem fields?_bare (hc : isBare c = true) (cs : List Char) :
    fields? (c :: cs) = (fields? (cs.dropWhile isBare)).map
      (String.ofList (c :: cs.takeWhile isBare) :: ·) := by
  have hgap : isGap c = false := by
    rw [Bool.eq_false_iff]
    intro hgap
    rw [isGap, Bool.or_eq_true, decide_eq_true_eq, decide_eq_true_eq] at hgap
    rcases hgap with rfl | rfl <;> exact absurd hc (by decide)
  have hquote : ¬(c = '\x22' ∨ c = '\x60') := by
    rintro (rfl | rfl) <;> exact absurd hc (by decide)
  rw [fields?, if_neg (by simp [hgap]), if_neg (by simpa using hquote), if_pos hc]

theorem fields?_stray (hgap : isGap c = false) (hquote : ¬(c = '\x22' ∨ c = '\x60'))
    (hbare : isBare c = false) (cs : List Char) : fields? (c :: cs) = none := by
  rw [fields?, if_neg (by simp [hgap]), if_neg (by simpa using hquote), if_neg (by simp [hbare])]

theorem closeQuote?_append {q : Char} (cs : List Char) {k : List Char}
    (hk : closeQuote? q k = none) :
    closeQuote? q (cs ++ k) = (closeQuote? q cs).map fun field => (field.1, field.2 ++ k) := by
  induction cs with
  | nil => exact hk
  | cons c cs ih =>
    rw [cons_append, closeQuote?, closeQuote?]
    split
    · rfl
    · rw [ih, Option.map_map, Option.map_map]
      rfl

/-- A blank at the end of a line adds no field. -/
theorem fields?_append_space (cs : List Char) : fields? (cs ++ [' ']) = fields? cs := by
  induction hlen : cs.length using Nat.strong_induction_on generalizing cs with
  | _ n ih =>
  cases cs with
  | nil => exact fields?_gap rfl []
  | cons c cs =>
    have hshorter : ∀ k : List Char, k.length ≤ cs.length → fields? (k ++ [' ']) = fields? k := by
      intro k hk
      exact ih k.length (by rw [← hlen, length_cons]; omega) k rfl
    rw [cons_append]
    by_cases hgap : isGap c = true
    · rw [fields?_gap hgap, fields?_gap hgap, hshorter cs le_rfl]
    by_cases hquote : c = '\x22' ∨ c = '\x60'
    · have hspace : closeQuote? c [' '] = none := by rcases hquote with rfl | rfl <;> rfl
      rw [fields?_quote hquote, fields?_quote hquote, closeQuote?_append cs hspace]
      cases hclose : closeQuote? c cs with
      | none => rfl
      | some field =>
        obtain ⟨inner, rest⟩ := field
        exact congrArg (Option.map _) (hshorter rest (length_closeQuote? hclose).le)
    by_cases hbare : isBare c = true
    · have hspace : isBare ' ' = false := rfl
      have htake : (cs ++ [' ']).takeWhile isBare = cs.takeWhile isBare := by
        rw [takeWhile_append]
        split
        · rename_i hall
          have htaken : cs.takeWhile isBare <+: cs := takeWhile_prefix isBare
          rw [htaken.eq_of_length hall]
          simp [hspace]
        · rfl
      have hdrop : (cs ++ [' ']).dropWhile isBare = cs.dropWhile isBare ++ [' '] := by
        rw [dropWhile_append]
        simp [hspace]
      rw [fields?_bare hbare, fields?_bare hbare, htake, hdrop,
        hshorter _ (dropWhile_suffix isBare).length_le]
    · rw [Bool.not_eq_true] at hgap hbare
      rw [fields?_stray hgap hquote hbare, fields?_stray hgap hquote hbare]

theorem fields?_word {word : List Char} (hne : word ≠ []) (hbare : word.all isBare = true)
    (cs : List Char) : fields? (word ++ ' ' :: cs) = (fields? cs).map (String.ofList word :: ·) := by
  obtain ⟨c, w, rfl⟩ := exists_cons_of_ne_nil hne
  rw [all_cons, Bool.and_eq_true, all_eq_true] at hbare
  have hspace : isBare ' ' = false := rfl
  rw [cons_append, fields?_bare hbare.1, takeWhile_append_of_pos hbare.2,
    dropWhile_append_of_pos hbare.2, takeWhile_cons_of_neg (by simp [hspace]),
    dropWhile_cons_of_neg (by simp [hspace]), append_nil, fields?_gap rfl]

end fields

/-! ## Comments -/

/-- The quote that is open behind a text, when `quote` is open before it. -/
def openQuote (quote : Option Char) : List Char → Option Char
  | [] => quote
  | c :: cs =>
    match quote with
    | some q => openQuote (if c = q then none else some q) cs
    | none => openQuote (if c = '\x22' ∨ c = '\x60' then some c else none) cs

/-- Two slashes stand in a line where no quote is open. -/
def HasComment (quote : Option Char) (line : List Char) : Prop :=
  ∃ a b, line = a ++ '/' :: '/' :: b ∧ openQuote quote a = none

theorem HasComment.cons {quote : Option Char} {c : Char} {line : List Char}
    (h : HasComment (openQuote quote [c]) line) : HasComment quote (c :: line) := by
  obtain ⟨a, b, rfl, ha⟩ := h
  refine ⟨c :: a, b, rfl, ?_⟩
  cases quote <;> exact ha

/-- A text without a comment is kept in front of a text that does not start with a slash. -/
theorem dropComment_append {quote : Option Char} {line k : List Char}
    (hnone : ¬HasComment quote line) (hk : k.head? ≠ some '/') :
    dropComment quote (line ++ k) = line ++ dropComment (openQuote quote line) k := by
  induction line generalizing quote with
  | nil => rfl
  | cons c line ih =>
    have hline := ih fun h => hnone h.cons
    cases quote with
    | some q =>
      rw [cons_append, dropComment, openQuote]
      exact congrArg (c :: ·) hline
    | none =>
      have hslashes : ¬(c = '/' && (line ++ k).head? = some '/') = true := by
        rw [Bool.and_eq_true, decide_eq_true_eq, decide_eq_true_eq]
        rintro ⟨rfl, hhead⟩
        cases line with
        | nil => exact hk hhead
        | cons d line =>
          obtain rfl : d = '/' := Option.some.inj hhead
          exact hnone ⟨[], line, rfl, rfl⟩
      rw [cons_append, dropComment, if_neg hslashes, openQuote]
      by_cases hquote : c = '\x22' ∨ c = '\x60'
      · rw [if_pos hquote, if_pos (by simpa using hquote)]
        rw [openQuote, if_pos hquote] at hline
        exact congrArg (c :: ·) hline
      · rw [if_neg hquote, if_neg (by simpa using hquote)]
        rw [openQuote, if_neg hquote] at hline
        exact congrArg (c :: ·) hline

theorem openQuote_bare {word : List Char} (hword : word.all isBare = true) :
    openQuote none word = none := by
  induction word with
  | nil => rfl
  | cons c word ih =>
    obtain ⟨hc, hrest⟩ := (Bool.and_eq_true _ _).mp hword
    have hquote : ¬(c = '\x22' ∨ c = '\x60') := by
      rintro (rfl | rfl) <;> exact absurd hc (by decide)
    rw [openQuote, if_neg hquote, ih hrest]

/-! ## Lines -/

/-- The fields of a line, without its comment. -/
def lineFields? (line : List Char) : Option (List String) :=
  fields? (dropComment none line)

/-- A comment adds no field to a line whose quotes are closed. -/
theorem lineFields?_comment {line : List Char} (hopen : openQuote none line = none)
    (hnone : ¬HasComment none line) (comment : List Char) :
    lineFields? (line ++ ' ' :: '/' :: '/' :: comment) = lineFields? line := by
  have hself : dropComment none line = line := by
    simpa [dropComment] using dropComment_append (k := []) hnone (by simp)
  rw [lineFields?, lineFields?, hself, dropComment_append hnone (by simp), hopen]
  simpa [dropComment] using fields?_append_space line

/-- A bare word without a comment in it, as verbs are. -/
structure IsVerb (verb : List Char) : Prop where
  ne_nil : verb ≠ []
  bare : verb.all isBare = true
  plain : ¬['/', '/'] <:+: verb

/-- A verb in front of a line is its first field. -/
theorem lineFields?_verb {verb : List Char} (h : IsVerb verb) (line : List Char) :
    lineFields? (verb ++ ' ' :: line) = (lineFields? line).map (String.ofList verb :: ·) := by
  have hnone : ¬HasComment none verb := by
    rintro ⟨a, b, rfl, -⟩
    exact h.plain ⟨a, b, by simp⟩
  rw [lineFields?, dropComment_append hnone (by simp), openQuote_bare h.bare]
  have hspace : dropComment none (' ' :: line) = ' ' :: dropComment none line := by
    simp [dropComment]
  rw [hspace, fields?_word h.ne_nil h.bare, lineFields?]

/-! ## Reading on -/

/-- An error without the number of its line. -/
def Error.unnumbered : Error → Error
  | .malformed _ fault => .malformed 0 fault
  | .noModule => .noModule
  | .unreadable failure => .unreadable failure

inductive SameVerb : Block → Block → Prop
  | closed : SameVerb none none
  | opened (verb : String) (line line' : Nat) : SameVerb (some (verb, line)) (some (verb, line'))

section reading

variable {d d' : Draft} {block block' : Block} {line line' : Nat} {fields : List String}
  {text text' verb : List Char} {texts texts' entries : List (List Char)}

/-- Reads on from what has been read of a module file. -/
def readLines (d : Draft) (block : Block) (line : Nat) (texts : List (List Char)) :
    Except Error ModFile :=
  (addLines d block line texts).bind fun state => state.1.finish state.2

theorem parse_eq (text : List Char) :
    parse (String.ofList text) = readLines .empty none 1 (lines text) := by
  rw [parse, String.toList_ofList]
  rfl

theorem readLines_quote (h : lineFields? text = none) (d : Draft) (block : Block) (line : Nat)
    (texts : List (List Char)) :
    readLines d block line (text :: texts) = .error (.malformed line .quote) := by
  rw [lineFields?] at h
  rw [readLines, addLines, h]
  rfl

theorem readLines_fault {fault : LineFault} (h : lineFields? text = some fields)
    (hline : addLine d block line fields = .error fault) (texts : List (List Char)) :
    readLines d block line (text :: texts) = .error (.malformed line fault) := by
  rw [lineFields?] at h
  simp only [readLines, addLines, h, hline]
  rfl

theorem readLines_next (h : lineFields? text = some fields)
    (hline : addLine d block line fields = .ok (d', block')) (texts : List (List Char)) :
    readLines d block line (text :: texts) = readLines d' block' (line + 1) texts := by
  rw [lineFields?] at h
  simp only [readLines, addLines, h, hline]

theorem readLines_congr (h : lineFields? text = lineFields? text') (d : Draft) (block : Block)
    (line : Nat) (texts : List (List Char)) :
    readLines d block line (text :: texts) = readLines d block line (text' :: texts) := by
  rw [lineFields?, lineFields?] at h
  rw [readLines, readLines, addLines, addLines, h]

theorem readLines_append (d : Draft) (block : Block) (line : Nat) (above below : List (List Char)) :
    readLines d block line (above ++ below) = (addLines d block line above).bind fun state =>
      readLines state.1 state.2 (line + above.length) below := by
  induction above generalizing d block line with
  | nil => rfl
  | cons text above ih =>
    rw [cons_append]
    cases h : lineFields? text with
    | none =>
      rw [readLines_quote h, addLines, ← lineFields?, h]
      rfl
    | some fields =>
      cases hline : addLine d block line fields with
      | error fault =>
        rw [readLines_fault h hline, addLines, ← lineFields?, h]
        simp only [hline]
        rfl
      | ok state =>
        rw [readLines_next h hline, ih, addLines, ← lineFields?, h]
        simp only [hline, length_cons]
        rw [Nat.add_right_comm, Nat.add_assoc]

theorem addLine_cases (h : SameVerb block block') (d : Draft) (line line' : Nat)
    (fields : List String) :
    (∃ fault, addLine d block line fields = .error fault ∧
      addLine d block' line' fields = .error fault) ∨
    ∃ d' next next', addLine d block line fields = .ok (d', next) ∧
      addLine d block' line' fields = .ok (d', next') ∧ SameVerb next next' := by
  cases fields with
  | nil => exact .inr ⟨d, block, block', rfl, rfl, h⟩
  | cons first args =>
    cases h with
    | closed =>
      rw [addLine, addLine]
      split
      · exact .inr ⟨d, _, _, rfl, rfl, .opened first line line'⟩
      · cases d.add first args with
        | error fault => exact .inl ⟨fault, rfl, rfl⟩
        | ok d' => exact .inr ⟨d', none, none, rfl, rfl, .closed⟩
    | opened verb start start' =>
      rw [addLine, addLine]
      split
      · exact .inr ⟨d, none, none, rfl, rfl, .closed⟩
      · cases d.add verb (first :: args) with
        | error fault => exact .inl ⟨fault, rfl, rfl⟩
        | ok d' => exact .inr ⟨d', _, _, rfl, rfl, .opened verb start start'⟩

/-- The number of a line decides nothing but the number in an error. -/
theorem unnumbered_readLines (h : SameVerb block block') (d : Draft) (line line' : Nat)
    (texts : List (List Char)) :
    (readLines d block line texts).mapError Error.unnumbered
      = (readLines d block' line' texts).mapError Error.unnumbered := by
  induction texts generalizing d block block' line line' with
  | nil =>
    cases h with
    | closed => rfl
    | opened verb start start' => rfl
  | cons text texts ih =>
    cases hfields : lineFields? text with
    | none =>
      rw [readLines_quote hfields, readLines_quote hfields]
      rfl
    | some fields =>
      rcases addLine_cases h d line line' fields with ⟨fault, hleft, hright⟩ |
        ⟨d', next, next', hleft, hright, hnext⟩
      · rw [readLines_fault hfields hleft, readLines_fault hfields hright]
        rfl
      · rw [readLines_next hfields hleft, readLines_next hfields hright]
        exact ih hnext d' (line + 1) (line' + 1)

/-! ## Blocks -/

/-- The line can stand in a block: if it has fields, they are neither none nor a lone parenthesis. -/
def IsEntry (line : List Char) : Prop :=
  ∀ fields, lineFields? line = some fields → fields ≠ [] ∧ fields ≠ ["("] ∧ fields ≠ [")"]

theorem addLine_entry (hnil : fields ≠ []) (hclose : fields ≠ [")"]) (d : Draft) (verb : String)
    (start line : Nat) : addLine d (some (verb, start)) line fields
      = (d.add verb fields).map fun d' => (d', some (verb, start)) := by
  cases fields with
  | nil => exact absurd rfl hnil
  | cons first args =>
    rw [addLine, if_neg]
    rw [Bool.and_eq_true, decide_eq_true_eq, List.isEmpty_iff]
    rintro ⟨rfl, rfl⟩
    exact hclose rfl

theorem addLine_directive (hopen : fields ≠ ["("]) (d : Draft) (verb : String) (line : Nat) :
    addLine d none line (verb :: fields) = (d.add verb fields).map fun d' => (d', none) := by
  rw [addLine, if_neg hopen]

/-- The rest of a block, to the parenthesis that closes it, says what its entries say with the verb
in front of each. -/
theorem unnumbered_entries (hverb : IsVerb verb) (hentries : ∀ entry ∈ entries, IsEntry entry)
    (d : Draft) (start line line' : Nat) (texts : List (List Char)) :
    (readLines d (some (String.ofList verb, start)) line
        (entries ++ [')'] :: texts)).mapError Error.unnumbered
      = (readLines d none line'
        (entries.map (verb ++ ' ' :: ·) ++ texts)).mapError Error.unnumbered := by
  induction entries generalizing d line line' with
  | nil =>
    have hclose : lineFields? [')'] = some [")"] := by decide +kernel
    rw [nil_append, readLines_next hclose rfl]
    exact unnumbered_readLines .closed d (line + 1) line' texts
  | cons entry entries ih =>
    obtain ⟨hentry, hentries⟩ := forall_mem_cons.1 hentries
    have hflat := lineFields?_verb hverb entry
    rw [cons_append, map_cons, cons_append]
    cases hfields : lineFields? entry with
    | none =>
      rw [hfields] at hflat
      rw [readLines_quote hfields, readLines_quote hflat]
      rfl
    | some fields =>
      obtain ⟨hnil, hopen, hclose⟩ := hentry fields hfields
      rw [hfields] at hflat
      have hblock := addLine_entry hnil hclose d (String.ofList verb) start line
      have hline := addLine_directive hopen d (String.ofList verb) line'
      cases hadd : d.add (String.ofList verb) fields with
      | error fault =>
        rw [hadd] at hblock hline
        rw [readLines_fault hfields hblock, readLines_fault hflat hline]
        rfl
      | ok d' =>
        rw [hadd] at hblock hline
        rw [readLines_next hfields hblock, readLines_next hflat hline]
        exact ih hentries d' (line + 1) (line' + 1)

/-- A block says what its entries say with the verb in front of each. -/
theorem unnumbered_block (hverb : IsVerb verb) (hentries : ∀ entry ∈ entries, IsEntry entry)
    (d : Draft) (line line' : Nat) (texts : List (List Char)) :
    (readLines d none line
        ((verb ++ [' ', '(']) :: (entries ++ [')'] :: texts))).mapError Error.unnumbered
      = (readLines d none line'
        (entries.map (verb ++ ' ' :: ·) ++ texts)).mapError Error.unnumbered := by
  have hparen : lineFields? ['('] = some ["("] := by decide +kernel
  have hopen : lineFields? (verb ++ [' ', '(']) = some [String.ofList verb, "("] := by
    rw [lineFields?_verb hverb, hparen, Option.map_some]
  rw [readLines_next hopen rfl]
  exact unnumbered_entries hverb hentries d line (line + 1) line' texts

end reading

/-! ## Texts -/

/-- The characters that end a line. -/
def IsLineBreak (eol : List Char) : Prop :=
  eol = ['\n'] ∨ eol = ['\r', '\n']

/-- Lines one below the other, each with a line break at its end. -/
def stacked (eol : List Char) (lines : List (List Char)) : List Char :=
  lines.flatMap (· ++ eol)

/-- A block with its entries, from the verb to the closing parenthesis. -/
def blockText (eol verb : List Char) (entries : List (List Char)) : List Char :=
  stacked eol ((verb ++ [' ', '(']) :: (entries ++ [[')']]))

/-- The entries of a block as directives of their own. -/
def directiveText (eol verb : List Char) (entries : List (List Char)) : List Char :=
  stacked eol (entries.map (verb ++ ' ' :: ·))

theorem lines_break {l : List Char} (heol : IsLineBreak eol) (hl : '\n' ∉ l) (k : List Char) :
    lines (l ++ (eol ++ k)) = chomp (l ++ eol) :: lines k := by
  rcases heol with rfl | rfl
  · exact lines_line hl k
  · have hreturn : '\n' ∉ l ++ ['\r'] := by simpa using hl
    simpa using lines_line hreturn k

theorem lines_stacked (heol : IsLineBreak eol) {lines : List (List Char)}
    (hlines : ∀ l ∈ lines, '\n' ∉ l) (k : List Char) :
    Text.lines (stacked eol lines ++ k)
      = lines.map (fun l => Text.chomp (l ++ eol)) ++ Text.lines k := by
  induction lines with
  | nil => rfl
  | cons l lines ih =>
    obtain ⟨hl, hlines⟩ := forall_mem_cons.1 hlines
    rw [stacked, flatMap_cons, ← stacked, append_assoc, append_assoc,
      lines_break heol hl, ih hlines, map_cons, cons_append]

theorem chomp_break (heol : IsLineBreak eol) {c : Char} (hc : c ≠ '\r')
    (u v : List Char) : chomp (u ++ c :: (v ++ eol)) = u ++ c :: chomp (v ++ eol) := by
  rcases heol with rfl | rfl
  · exact chomp_append hc u v
  · have hcut : u ++ c :: (v ++ ['\r', '\n']) = u ++ c :: v ++ ['\r', '\n'] := by simp
    rw [hcut, chomp_return, chomp_return]

theorem chomp_break_nil (heol : IsLineBreak eol) : chomp eol = [] := by
  rcases heol with rfl | rfl <;> rfl

theorem IsVerb.no_break {verb : List Char} (h : IsVerb verb) : '\n' ∉ verb := by
  intro hmem
  exact absurd (all_eq_true.1 h.bare '\n' hmem) (by decide)

section texts

variable {eol verb line below comment : List Char} {entries : List (List Char)}

theorem lines_block (heol : IsLineBreak eol) (hverb : IsVerb verb)
    (hentries : ∀ entry ∈ entries, '\n' ∉ entry) (k : List Char) :
    lines (blockText eol verb entries ++ k)
      = (verb ++ [' ', '(']) ::
        (entries.map (fun entry => chomp (entry ++ eol)) ++ [')'] :: lines k) := by
  have hlines : ∀ l ∈ (verb ++ [' ', '(']) :: (entries ++ [[')']]), '\n' ∉ l := by
    simpa [hverb.no_break, or_imp, forall_and] using hentries
  have hopen : chomp (verb ++ [' ', '('] ++ eol) = verb ++ [' ', '('] := by
    have hcut : verb ++ [' ', '('] ++ eol = (verb ++ [' ']) ++ '(' :: ([] ++ eol) := by simp
    rw [hcut, chomp_break heol (by decide), nil_append, chomp_break_nil heol]
    simp
  have hclose : chomp ([')'] ++ eol) = [')'] := by
    have hbreak := chomp_break heol (c := ')') (by decide) [] []
    rwa [nil_append, nil_append, chomp_break_nil heol] at hbreak
  rw [blockText, lines_stacked heol hlines, map_cons, map_append, map_singleton,
    hopen, hclose]
  simp

theorem lines_directives (heol : IsLineBreak eol) (hverb : IsVerb verb)
    (hentries : ∀ entry ∈ entries, '\n' ∉ entry) (k : List Char) :
    lines (directiveText eol verb entries ++ k)
      = (entries.map fun entry => chomp (entry ++ eol)).map (verb ++ ' ' :: ·)
        ++ lines k := by
  have hlines : ∀ l ∈ entries.map (verb ++ ' ' :: ·), '\n' ∉ l := by
    simpa [hverb.no_break] using hentries
  have hline : ∀ entry, chomp (verb ++ ' ' :: entry ++ eol)
      = verb ++ ' ' :: chomp (entry ++ eol) := by
    intro entry
    rw [append_assoc, cons_append, chomp_break heol (by decide)]
  rw [directiveText, lines_stacked heol hlines, map_map, map_map]
  simp only [Function.comp_def, hline]

/-- The characters that can end a line above a text.  A carriage return before a line feed belongs
to the end, and only a line with nothing below it may lack one. -/
inductive EndsLine (line below : List Char) : List Char → Prop
  | feed (hline : line.getLast? ≠ some '\r') : EndsLine line below ['\n']
  | carriage : EndsLine line below ['\r', '\n']
  | stop (hbelow : below = []) : EndsLine line below []

theorem lines_ended (heol : EndsLine line below eol) (hline : '\n' ∉ line) :
    lines (line ++ (eol ++ below)) = line :: lines below ∨
      line = [] ∧ below = [] ∧ lines (line ++ (eol ++ below)) = [] := by
  cases heol with
  | feed hlast => exact .inl (by rw [lines_break (.inl rfl) hline, chomp_feed hlast])
  | carriage => exact .inl (by rw [lines_break (.inr rfl) hline, chomp_return])
  | stop hbelow =>
    subst hbelow
    rw [append_nil, append_nil]
    by_cases hnil : line = []
    · subst hnil
      exact .inr ⟨rfl, rfl, rfl⟩
    · exact .inl (lines_last hnil hline)

theorem lines_commented (heol : EndsLine line below eol) (hline : '\n' ∉ line)
    (hcomment : '\n' ∉ comment) :
    ∃ comment', lines (line ++ ' ' :: '/' :: '/' :: comment ++ (eol ++ below))
      = (line ++ ' ' :: '/' :: '/' :: comment') :: lines below := by
  have hall : '\n' ∉ line ++ ' ' :: '/' :: '/' :: comment := by simp [hline, hcomment]
  have hbreak : ∀ eol, IsLineBreak eol →
      ∃ comment', lines (line ++ ' ' :: '/' :: '/' :: comment ++ (eol ++ below))
        = (line ++ ' ' :: '/' :: '/' :: comment') :: lines below := by
    intro eol heol
    refine ⟨chomp (comment ++ eol), ?_⟩
    have hcut : line ++ ' ' :: '/' :: '/' :: comment ++ eol
        = (line ++ [' ', '/']) ++ '/' :: (comment ++ eol) := by simp
    rw [lines_break heol hall, hcut, chomp_break heol (by decide)]
    simp
  cases heol with
  | feed _ => exact hbreak _ (.inl rfl)
  | carriage => exact hbreak _ (.inr rfl)
  | stop hbelow =>
    subst hbelow
    rw [append_nil, append_nil]
    exact ⟨comment, lines_last (by simp) hall⟩

end texts

/-- Every block of the text is closed at its end, if it can be read that far. -/
def IsClosed (text : List Char) : Prop :=
  ∀ d block, addLines .empty none 1 (lines text) = .ok (d, block) → block = none

/-- Blocks and comments are ways to write.  A block says what its entries say when each stands on a
line of its own with the verb in front: both texts give the same module file, or they have the same
fault, at lines that may have other numbers.  A comment behind a line whose quotes are closed changes
nothing. -/
theorem parse_blocks_comments :
    (∀ (pre post verb eol : List Char) (entries : List (List Char)),
      IsEnded pre → IsClosed pre → IsVerb verb → IsLineBreak eol →
      (∀ entry ∈ entries, '\n' ∉ entry ∧ IsEntry (chomp (entry ++ eol))) →
      (parse (String.ofList (pre ++ (blockText eol verb entries ++ post)))).mapError
          Error.unnumbered
        = (parse (String.ofList (pre ++ (directiveText eol verb entries ++ post)))).mapError
          Error.unnumbered) ∧
    ∀ above line eol below comment : List Char,
      IsEnded above → '\n' ∉ line → EndsLine line below eol → openQuote none line = none →
      ¬HasComment none line → '\n' ∉ comment →
      parse (String.ofList (above ++ (line ++ ' ' :: '/' :: '/' :: comment ++ (eol ++ below))))
        = parse (String.ofList (above ++ (line ++ (eol ++ below)))) := by
  constructor
  · intro pre post verb eol entries hpre hclosed hverb heol hentries
    have hbreaks : ∀ entry ∈ entries, '\n' ∉ entry := fun entry h => (hentries entry h).1
    have hlines : ∀ l ∈ entries.map (fun entry => chomp (entry ++ eol)), IsEntry l := by
      simpa using fun entry h => (hentries entry h).2
    rw [parse_eq, parse_eq, lines_append hpre, lines_append hpre,
      lines_block heol hverb hbreaks, lines_directives heol hverb hbreaks, readLines_append,
      readLines_append]
    cases hread : addLines .empty none 1 (lines pre) with
    | error e => rfl
    | ok state =>
      obtain ⟨d, block⟩ := state
      obtain rfl := hclosed d block hread
      exact unnumbered_block hverb hlines d _ _ (lines post)
  · intro above line eol below comment habove hline heol hopen hnone hcomment
    obtain ⟨comment', hcommented⟩ := lines_commented heol hline hcomment
    rw [parse_eq, parse_eq, lines_append habove, lines_append habove, readLines_append,
      readLines_append, hcommented]
    congr 1
    funext state
    rcases lines_ended heol hline with hended | ⟨rfl, rfl, hended⟩
    · rw [hended]
      exact readLines_congr (lineFields?_comment hopen hnone comment') _ _ _ _
    · have hempty : lineFields? [] = some [] := by rw [lineFields?, dropComment, fields?]
      have hfields := (lineFields?_comment hopen hnone comment').trans hempty
      rw [hended, readLines_next hfields rfl]
      rfl

/-- Entries with quotes of both kinds and with a comment, in a text with carriage returns, whatever
comes behind them, and with a version of the language there a text that is read; and a comment behind
a line that has two slashes in quotes. -/
theorem parse_blocks_comments_quoted :
    (∀ post : List Char, (parse (String.ofList ("module m\n".toList ++ (blockText ['\r', '\n']
        "require".toList ["\ta/b v1 // c".toList, "\x22d//e\x22 \x60v2\x60".toList] ++ post)))).mapError
        Error.unnumbered
      = (parse (String.ofList ("module m\n".toList ++ (directiveText ['\r', '\n'] "require".toList
        ["\ta/b v1 // c".toList, "\x22d//e\x22 \x60v2\x60".toList] ++ post)))).mapError
        Error.unnumbered) ∧
    parse (String.ofList ("module m\n".toList ++ (blockText ['\r', '\n'] "require".toList
        ["\ta/b v1 // c".toList, "\x22d//e\x22 \x60v2\x60".toList] ++ "go 1.2\n".toList)))
      = .ok ⟨"m", some "1.2", [⟨"a/b", "v1"⟩, ⟨"d//e", "v2"⟩], []⟩ ∧
    parse (String.ofList ("go 1.2\n".toList ++ ("module \x22a//b\x22".toList
        ++ ' ' :: '/' :: '/' :: "\x22 (".toList ++ (['\r', '\n'] ++ ['\n']))))
      = parse (String.ofList ("go 1.2\n".toList ++ ("module \x22a//b\x22".toList
        ++ (['\r', '\n'] ++ ['\n'])))) := by
  have hentry : ∀ {line : List Char} {fields : List String}, lineFields? line = some fields →
      fields ≠ [] ∧ fields ≠ ["("] ∧ fields ≠ [")"] → IsEntry line := by
    rintro line fields hline hfields fields' hline'
    rwa [← Option.some.inj (hline.symm.trans hline')]
  refine ⟨fun post => ?_, by decide +kernel, ?_⟩
  · have hread : addLines .empty none 1 (lines "module m\n".toList)
        = .ok (⟨some "m", none, [], []⟩, none) := by cbv
    refine parse_blocks_comments.1 _ _ _ _ _ (.inr rfl) ?_ ⟨by decide, by decide, by decide⟩
      (.inr rfl) ?_
    · intro d block h
      rw [hread] at h
      cases h
      rfl
    · have hbare : lineFields? (chomp ("\ta/b v1 // c".toList ++ ['\r', '\n']))
          = some ["a/b", "v1"] := by cbv
      have hquoted : lineFields? (chomp ("\x22d//e\x22 \x60v2\x60".toList ++ ['\r', '\n']))
          = some ["d//e", "v2"] := by cbv
      rw [forall_mem_cons, forall_mem_singleton]
      exact ⟨⟨by decide, hentry hbare (by decide)⟩, by decide, hentry hquoted (by decide)⟩
  · refine parse_blocks_comments.2 _ _ _ _ _ (.inr rfl) (by decide) .carriage (by decide) ?_
      (by decide)
    rintro ⟨a, b, h, ha⟩
    have hbefore : a = "module \x22a".toList := by
      simp [cons_eq_append_iff] at h
      exact h.1
    rw [hbefore] at ha
    cases ha

end Stubwright.ModFile
