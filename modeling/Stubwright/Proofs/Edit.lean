import Stubwright.Edit
import Stubwright.Proofs.Accounting.Spans

/-!
# What a batch of edits does

A batch is checked by comparing neighbours, once it is in order, and carried out in one pass over
the text.  Both agree with what one would say of the edits one by one.

* `applyAll_eq_ok_iff`: a batch is carried out just if its spans lie in the text and do not overlap.
* `sound_applyAll`: what comes out, and which fault is found.
-/

namespace Stubwright

open List

open Text

/-! ## Two places in a text -/

/-- A boundary that is not before the end of `a` cuts what stands behind `a`. -/
theorem Text.exists_of_isBoundary {n : Nat} {a z : List Char} (hle : byteSize a ≤ n)
    (h : isBoundary n (a ++ z) = true) :
    ∃ u b, z = u ++ b ∧ byteSize (a ++ u) = n := by
  obtain ⟨a', b, htext, rfl⟩ := isBoundary_iff.1 h
  rcases append_eq_append_iff.1 htext with ⟨u, rfl, rfl⟩ | ⟨u, rfl, rfl⟩
  · exact ⟨u, b, rfl, rfl⟩
  · -- The cut is not before the end of `a`, so nothing of `a` is left behind it.
    have hu : byteSize u = 0 := by
      rw [byteSize_append] at hle
      omega
    cases u with
    | nil => exact ⟨[], z, rfl, by simp⟩
    | cons c u =>
      have := c.utf8Size_pos
      rw [byteSize_cons] at hu
      omega

theorem Text.splitAt?_byteSize (a b : List Char) :
    splitAt? (byteSize a) (a ++ b) = some (a, b) :=
  splitAt?_eq_some_iff.2 ⟨rfl, rfl⟩

theorem Text.slice?_byteSize (a u b : List Char) :
    slice? (byteSize a) (byteSize (a ++ u)) (a ++ u ++ b) = some u := by
  have h := Span.slice?_of_eq (show a ++ u ++ b = a ++ u ++ b from rfl)
  rwa [← byteSize_append] at h

namespace Span

theorem overlaps_iff {s t : Span} : s.overlaps t = true ↔ s.start < t.stop ∧ t.start < s.stop := by
  simp [overlaps]

theorem overlaps_comm (s t : Span) : s.overlaps t = t.overlaps s :=
  Bool.and_comm _ _

end Span

namespace Edit

variable {text out : List Char} {edits edits' ordered : List Edit} {e : Edit}

/-! ## The order of a batch -/

theorem precedes_iff {a b : Edit} : a.precedes b = true ↔
    a.span.start < b.span.start ∨ a.span.start = b.span.start ∧ a.span.stop ≤ b.span.stop := by
  simp [precedes]

theorem precedes_trans (a b c : Edit) (hab : a.precedes b = true) (hbc : b.precedes c = true) :
    a.precedes c = true := by
  rw [precedes_iff] at hab hbc ⊢
  omega

theorem precedes_total (a b : Edit) : (a.precedes b || b.precedes a) = true := by
  rw [Bool.or_eq_true, precedes_iff, precedes_iff]
  omega

theorem precedes_of_span_eq {a b : Edit} (h : a.span = b.span) : a.precedes b = true := by
  rw [precedes_iff, h]
  omega

theorem span_eq_of_precedes {a b : Edit} (hab : a.precedes b = true) (hba : b.precedes a = true) :
    a.span = b.span := by
  rw [precedes_iff] at hab hba
  have hstart : a.span.start = b.span.start := by omega
  have hstop : a.span.stop = b.span.stop := by omega
  calc a.span = ⟨a.span.start, a.span.stop⟩ := rfl
    _ = ⟨b.span.start, b.span.stop⟩ := by rw [hstart, hstop]
    _ = b.span := rfl

/-- `ordered` holds the edits of a batch by start, then by end, those with one span in the order
they were asked for. -/
structure Arranged (edits ordered : List Edit) : Prop where
  perm : ordered.Perm edits
  sorted : ordered.Pairwise fun a b => a.precedes b = true
  stable : ∀ s : Span, ordered.filter (·.span = s) = edits.filter (·.span = s)

/-- Sorting arranges a batch. -/
theorem arranged_mergeSort (edits : List Edit) : Arranged edits (edits.mergeSort precedes) := by
  have hperm := mergeSort_perm edits precedes
  refine ⟨hperm, pairwise_mergeSort precedes_trans precedes_total edits, fun s => ?_⟩
  -- Edits with one span are in order as they stand, so they stand like that in the sorted list.
  have hsame : (edits.filter (·.span = s)).Pairwise fun a b => a.precedes b = true := by
    refine pairwise_of_forall_mem_list fun a ha b hb => precedes_of_span_eq ?_
    simp only [mem_filter, decide_eq_true_eq] at ha hb
    rw [ha.2, hb.2]
  have hsub := sublist_mergeSort precedes_trans precedes_total hsame filter_sublist
  have hsub' := hsub.filter (·.span = s)
  rw [filter_filter] at hsub'
  simp only [Bool.and_self] at hsub'
  exact (hsub'.eq_of_length (hperm.filter _).length_eq.symm).symm

/-! ## Neighbours -/

/-- No two of the edits overlap. -/
abbrev Apart (edits : List Edit) : Prop :=
  edits.Pairwise fun a b => a.span.overlaps b.span = false

theorem firstOverlap?_eq_none (h : Apart edits) : firstOverlap? edits = none := by
  induction edits with
  | nil => rfl
  | cons a rest ih =>
    cases rest with
    | nil => rfl
    | cons b rest =>
      have hab := (pairwise_cons.1 h).1 b (.head _)
      rw [firstOverlap?, hab]
      exact ih h.of_cons

/-- Two different edits of a batch overlap. -/
def Clash (edits : List Edit) : Prop :=
  ∃ (i j : Nat) (a b : Edit), i ≠ j ∧ edits[i]? = some a ∧ edits[j]? = some b ∧
    a.span.overlaps b.span = true

theorem not_clash_iff : ¬Clash edits ↔ Apart edits := by
  rw [Apart, pairwise_iff_getElem]
  constructor
  · intro h i j hi hj hij
    rw [← Bool.not_eq_true]
    intro hover
    exact h ⟨i, j, edits[i], edits[j], Nat.ne_of_lt hij, getElem?_eq_getElem hi,
      getElem?_eq_getElem hj, hover⟩
  · rintro h ⟨i, j, a, b, hij, ha, hb, hover⟩
    obtain ⟨hi, rfl⟩ := List.getElem?_eq_some_iff.1 ha
    obtain ⟨hj, rfl⟩ := List.getElem?_eq_some_iff.1 hb
    -- Overlapping has no direction, so the earlier of the two may be taken first.
    rcases Nat.lt_or_gt_of_ne hij with hlt | hlt
    · rw [h i j hi hj hlt] at hover
      cases hover
    · rw [Span.overlaps_comm, h j i hj hi hlt] at hover
      cases hover

theorem Apart.perm (h : Apart edits) (hperm : edits.Perm edits') : Apart edits' :=
  List.Pairwise.perm h hperm fun {a b} hab => by rwa [Span.overlaps_comm]

/-- If no two neighbours overlap in a batch that is in order, every edit ends before the later ones
start. -/
theorem follows_of_neighbours (hle : ∀ e ∈ ordered, e.span.start ≤ e.span.stop)
    (hsorted : ordered.Pairwise fun a b => a.precedes b = true)
    (hnone : firstOverlap? ordered = none) :
    ordered.Pairwise fun a b => a.span.stop ≤ b.span.start := by
  induction ordered with
  | nil => exact .nil
  | cons a rest ih =>
    cases rest with
    | nil => exact pairwise_singleton _ _
    | cons b rest =>
      rw [firstOverlap?] at hnone
      split at hnone
      · cases hnone
      rename_i hab
      have hrest := ih (fun e he => hle e (.tail _ he)) hsorted.of_cons hnone
      have ha := hle a (.head _)
      have hb := hle b (.tail _ (.head _))
      -- An empty span that starts with a longer one sorts before it, so it cannot stand behind `a`.
      have hfirst : a.span.stop ≤ b.span.start := by
        have hprecedes := precedes_iff.1 ((pairwise_cons.1 hsorted).1 b (.head _))
        rw [Span.overlaps_iff] at hab
        omega
      refine pairwise_cons.2 ⟨fun c hc => ?_, hrest⟩
      rcases mem_cons.1 hc with rfl | hc
      · exact hfirst
      · have hbc := (pairwise_cons.1 hrest).1 c hc
        omega

/-- Comparing neighbours finds out whether any two edits overlap. -/
theorem firstOverlap?_eq_none_iff (hle : ∀ e ∈ edits, e.span.start ≤ e.span.stop)
    (harranged : Arranged edits ordered) : firstOverlap? ordered = none ↔ Apart edits := by
  constructor
  · intro hnone
    have hfollows := follows_of_neighbours (fun e he => hle e (harranged.perm.subset he))
      harranged.sorted hnone
    refine Apart.perm (hfollows.imp fun {a b} hab => ?_) harranged.perm
    rw [← Bool.not_eq_true, Span.overlaps_iff]
    omega
  · intro hapart
    exact firstOverlap?_eq_none (hapart.perm harranged.perm.symm)

/-! ## One pass and one edit at a time -/

/-- The text with one edit carried out, when its span lies in the text and splits no character. -/
def applyOne? (e : Edit) (text : List Char) : Option (List Char) := do
  let (before, _) ← splitAt? e.span.start text
  let (_, after) ← splitAt? e.span.stop text
  return before ++ e.text.toList ++ after

/-- Carries out edits one at a time, the last one first. -/
def applyEach? (edits : List Edit) (text : List Char) : Option (List Char) :=
  edits.foldr (fun e text => text.bind e.applyOne?) (some text)

/-- The pieces of a text between edits, from the offset `cursor` on, with the texts of the edits
between them; there is no result when a piece is out of range. -/
def assemble? (text : List Char) (cursor : Nat) : List Edit → Option (List Char)
  | [] => slice? cursor (byteSize text) text
  | e :: es => do
    let kept ← slice? cursor e.span.start text
    let rest ← assemble? text e.span.stop es
    return kept ++ e.text.toList ++ rest

/-- The edits lie in a text behind an offset, one behind the other. -/
structure Laid (text : List Char) (cursor : Nat) (edits : List Edit) : Prop where
  isIn : ∀ e ∈ edits, e.span.IsIn text
  behind : ∀ e ∈ edits, cursor ≤ e.span.start
  follows : edits.Pairwise fun a b => a.span.stop ≤ b.span.start

theorem Laid.tail {cursor : Nat} (h : Laid text cursor (e :: edits)) :
    Laid text e.span.stop edits :=
  ⟨fun a ha => h.isIn a (.tail _ ha), (pairwise_cons.1 h.follows).1, h.follows.of_cons⟩

/-- The first of the edits cuts the text behind the offset in three. -/
theorem Laid.exists_cut {a z : List Char}
    (h : Laid (a ++ z) (byteSize a) (e :: edits)) :
    ∃ kept gone rest, z = kept ++ gone ++ rest ∧ e.span.start = byteSize (a ++ kept) ∧
      e.span.stop = byteSize (a ++ kept ++ gone) := by
  have he := h.isIn e (.head _)
  obtain ⟨kept, y, rfl, hstart⟩ := exists_of_isBoundary (h.behind e (.head _)) he.start
  have hle : byteSize (a ++ kept) ≤ e.span.stop := hstart ▸ he.le
  have hstop := he.stop
  rw [← append_assoc] at hstop
  obtain ⟨gone, rest, rfl, hgone⟩ := exists_of_isBoundary hle hstop
  exact ⟨kept, gone, rest, by rw [append_assoc], hstart.symm, hgone.symm⟩

section Cut

variable {a kept gone rest : List Char} {e : Edit}

theorem splice_cut (hstart : e.span.start = byteSize (a ++ kept))
    (hstop : e.span.stop = byteSize (a ++ kept ++ gone)) :
    splice (byteSize a) (kept ++ gone ++ rest) (e :: edits)
      = kept ++ e.text.toList ++ splice e.span.stop rest edits := by
  have hkept : e.span.start - byteSize a = byteSize kept := by
    rw [hstart, byteSize_append]
    omega
  have hgone : e.span.size = byteSize gone := by
    rw [Span.size, hstart, hstop, byteSize_append (a ++ kept)]
    omega
  rw [splice, hkept, append_assoc, splitAt?_byteSize]
  simp only
  rw [hgone, splitAt?_byteSize]

theorem assemble?_cut (hstart : e.span.start = byteSize (a ++ kept)) :
    assemble? (a ++ kept ++ gone ++ rest) (byteSize a) (e :: edits)
      = (assemble? (a ++ kept ++ gone ++ rest) e.span.stop edits).map
          (kept ++ e.text.toList ++ ·) := by
  have hslice : slice? (byteSize a) e.span.start (a ++ kept ++ gone ++ rest)
      = some kept := by
    rw [hstart, append_assoc (a ++ kept)]
    exact slice?_byteSize a kept (gone ++ rest)
  rw [assemble?, hslice]
  cases assemble? (a ++ kept ++ gone ++ rest) e.span.stop edits <;> rfl

theorem applyOne?_cut (hstart : e.span.start = byteSize (a ++ kept))
    (hstop : e.span.stop = byteSize (a ++ kept ++ gone)) :
    e.applyOne? (a ++ kept ++ gone ++ rest) = some (a ++ (kept ++ e.text.toList ++ rest)) := by
  have hbefore : splitAt? e.span.start (a ++ kept ++ gone ++ rest)
      = some (a ++ kept, gone ++ rest) := by
    rw [hstart, append_assoc (a ++ kept)]
    exact splitAt?_byteSize _ _
  have hafter : splitAt? e.span.stop (a ++ kept ++ gone ++ rest)
      = some (a ++ kept ++ gone, rest) := by
    rw [hstop]
    exact splitAt?_byteSize _ _
  rw [applyOne?, hbefore]
  simp only [Option.bind_eq_bind, Option.bind_some]
  rw [hafter]
  simp

end Cut

/-- The pass over the text never reaches a piece that is out of range. -/
theorem assemble?_eq_splice {a z : List Char} (h : Laid (a ++ z) (byteSize a) edits) :
    assemble? (a ++ z) (byteSize a) edits = some (splice (byteSize a) z edits) := by
  induction edits generalizing a z with
  | nil =>
    have hslice := slice?_byteSize a z []
    rwa [append_nil] at hslice
  | cons e edits ih =>
    obtain ⟨kept, gone, rest, rfl, hstart, hstop⟩ := h.exists_cut
    have htext : a ++ (kept ++ gone ++ rest) = a ++ kept ++ gone ++ rest := by simp
    rw [htext] at h ⊢
    have hrest := hstop ▸ h.tail
    rw [assemble?_cut hstart, splice_cut hstart hstop, hstop, ih hrest, Option.map_some]

/-- Carrying out the edits one at a time, the last one first, leaves the text before them alone and
puts the rest together in the same way as one pass. -/
theorem applyEach?_eq_assemble? {a z : List Char} (h : Laid (a ++ z) (byteSize a) edits) :
    applyEach? edits (a ++ z) = (assemble? (a ++ z) (byteSize a) edits).map (a ++ ·) := by
  induction edits generalizing a z with
  | nil =>
    have hslice := slice?_byteSize a z []
    rw [append_nil] at hslice
    rw [assemble?, hslice]
    rfl
  | cons e edits ih =>
    obtain ⟨kept, gone, rest, rfl, hstart, hstop⟩ := h.exists_cut
    have htext : a ++ (kept ++ gone ++ rest) = a ++ kept ++ gone ++ rest := by simp
    rw [htext] at h ⊢
    have hrest := hstop ▸ h.tail
    have heach : applyEach? (e :: edits) (a ++ kept ++ gone ++ rest)
        = (applyEach? edits (a ++ kept ++ gone ++ rest)).bind e.applyOne? := rfl
    rw [heach, ih hrest, assemble?_cut hstart, hstop]
    cases assemble? (a ++ kept ++ gone ++ rest) (byteSize (a ++ kept ++ gone)) edits with
    | none => rfl
    | some r => exact applyOne?_cut hstart hstop

/-! ## Batches in another order -/

/-- Lists of edits with the same spans in the same order, and for each span with the same edits in
the same order, are equal. -/
theorem eq_of_filter_span {l l' : List Edit} (hmap : l.map (·.span) = l'.map (·.span))
    (hfilter : ∀ s : Span, l.filter (·.span = s) = l'.filter (·.span = s)) : l = l' := by
  induction l generalizing l' with
  | nil => exact (map_eq_nil_iff.1 hmap.symm).symm
  | cons a l ih =>
    cases l' with
    | nil => cases hmap
    | cons b l' =>
      obtain ⟨hspan, hmap'⟩ := List.cons.inj hmap
      have hhead := hfilter a.span
      simp only [filter_cons, hspan, decide_true, if_true] at hhead
      obtain rfl := (List.cons.inj hhead).1
      refine congrArg (a :: ·) (ih hmap' fun s => ?_)
      have hs := hfilter s
      rw [filter_cons, filter_cons] at hs
      split at hs
      · exact (List.cons.inj hs).2
      · exact hs

/-- Two edits of a batch that replace the same text are the same edit. -/
theorem Apart.eq_of_span_eq (h : Apart edits) {a b : Edit} (ha : a ∈ edits) (hb : b ∈ edits)
    (hspan : a.span = b.span) (hne : a.span.start < a.span.stop) : a = b := by
  have : Std.Symm fun a b : Edit => a.span.overlaps b.span = false :=
    ⟨fun a b hab => by rwa [Span.overlaps_comm]⟩
  by_contra hab
  have hover := List.Pairwise.forall h ha hb hab
  rw [← hspan, ← Bool.not_eq_true, Span.overlaps_iff] at hover
  exact hover ⟨hne, hne⟩

namespace Arranged

variable {ordered' : List Edit}

/-- The spans of a batch come in one order only. -/
theorem map_span_eq (h : Arranged edits ordered) (h' : Arranged edits' ordered')
    (hperm : edits'.Perm edits) : ordered'.map (·.span) = ordered.map (·.span) := by
  have hsorted : ∀ {l : List Edit}, (l.Pairwise fun a b => a.precedes b = true) →
      (l.map (·.span)).Pairwise fun s t => (⟨s, ""⟩ : Edit).precedes ⟨t, ""⟩ = true := by
    intro l hl
    exact pairwise_map.2 hl
  refine List.Perm.eq_of_pairwise (fun s t _ _ hst hts => span_eq_of_precedes hst hts)
    (hsorted h'.sorted) (hsorted h.sorted) ?_
  exact (h'.perm.trans (hperm.trans h.perm.symm)).map _

/-- Two orders of a batch differ at most in the order of insertions at one offset. -/
theorem forall₂_of_perm (h : Arranged edits ordered) (h' : Arranged edits' ordered')
    (hperm : edits'.Perm edits) (hapart : Apart edits) :
    List.Forall₂ (fun a b => a.span = b.span ∧ (a.span.start < a.span.stop → a = b))
      ordered' ordered := by
  have hmap := h.map_span_eq h' hperm
  refine forall₂_iff_get.2 ⟨by simpa using congrArg List.length hmap, fun i hi' hi => ?_⟩
  have hspan : (ordered'.get ⟨i, hi'⟩).span = (ordered.get ⟨i, hi⟩).span := by
    have := congrArg (·[i]?) hmap
    simpa [hi, hi'] using this
  refine ⟨hspan, fun hne => hapart.eq_of_span_eq ?_ (h.perm.subset (get_mem _ _)) hspan hne⟩
  exact hperm.subset (h'.perm.subset (get_mem _ _))

/-- A batch whose insertions at each offset come in the same order is put in the same order. -/
theorem eq_of_perm (h : Arranged edits ordered) (h' : Arranged edits' ordered')
    (hperm : edits'.Perm edits) (hapart : Apart edits)
    (hle : ∀ e ∈ edits, e.span.start ≤ e.span.stop)
    (hinsert : ∀ n, edits'.filter (·.span = .emptyAt n) = edits.filter (·.span = .emptyAt n)) :
    ordered' = ordered := by
  refine eq_of_filter_span (h.map_span_eq h' hperm) fun s => ?_
  rw [h.stable, h'.stable]
  by_cases hs : s.start = s.stop
  · have hempty : s = .emptyAt s.start := by
      rw [Span.emptyAt]
      nth_rewrite 2 [hs]
      rfl
    rw [hempty]
    exact hinsert s.start
  · -- Only one edit can replace the span `s`.
    refine @List.Perm.eq_of_pairwise _ (fun _ _ => True) _ _ (fun a b ha hb _ _ => ?_)
      (pairwise_of_forall fun _ _ => trivial) (pairwise_of_forall fun _ _ => trivial)
      (hperm.filter _)
    simp only [mem_filter, decide_eq_true_eq] at ha hb
    have hne : a.span.start < a.span.stop := by
      have := hle b hb.1
      rw [hb.2] at this
      rw [ha.2]
      omega
    exact hapart.eq_of_span_eq (hperm.subset ha.1) hb.1 (ha.2.trans hb.2.symm) hne

end Arranged

/-! ## The contract of a batch -/

/-- `out` is the text with the edits of a batch carried out in order: from the last to the first, one
at a time, and also in one pass in which no piece is out of range. -/
structure CarriedOut (text : List Char) (edits ordered : List Edit) (out : List Char) : Prop where
  arranged : Arranged edits ordered
  each : applyEach? ordered text = some out
  assembled : assemble? text 0 ordered = some out

/-- What a batch of edits does to a text. -/
structure Sound (text : List Char) (edits : List Edit) : Prop where
  /-- The first edit whose span leaves the text or splits a character is refused. -/
  outOfBounds : ∀ s n, applyAll text edits = .error (.outOfBounds s n) ↔
    ∃ before e after, edits = before ++ e :: after ∧ (∀ a ∈ before, a.span.IsIn text) ∧
      ¬e.span.IsIn text ∧ s = e.span ∧ n = byteSize text
  /-- If there is none, the batch is refused exactly when two of its edits overlap. -/
  overlapping : (∀ e ∈ edits, e.span.IsIn text) →
    ((∃ s t, applyAll text edits = .error (.overlapping s t)) ↔ Clash edits)
  carriedOut : (∀ e ∈ edits, e.span.IsIn text) → ¬Clash edits →
    ∃ ordered out, applyAll text edits = .ok out ∧ CarriedOut text edits ordered out
  /-- Another order of the edits changes nothing but the order of insertions at one offset. -/
  permuted : ∀ edits', edits'.Perm edits →
    ((∃ out, applyAll text edits' = .ok out) ↔ ∃ out, applyAll text edits = .ok out) ∧
    ∀ out out', applyAll text edits = .ok out → applyAll text edits' = .ok out' →
      (∃ ordered ordered', CarriedOut text edits ordered out ∧
        CarriedOut text edits' ordered' out' ∧
        List.Forall₂ (fun a b => a.span = b.span ∧ (a.span.start < a.span.stop → a = b))
          ordered' ordered) ∧
      ((∀ n, edits'.filter (·.span = .emptyAt n) = edits.filter (·.span = .emptyAt n)) →
        out' = out)

theorem isInBounds_iff : e.isInBounds text = true ↔
    e.span.stop ≤ Text.byteSize text ∧ Text.isBoundary e.span.start text = true ∧
      Text.isBoundary e.span.stop text = true := by
  simp [isInBounds, and_assoc]

theorem isInBounds_of_isIn (h : e.span.IsIn text) : e.isInBounds text = true :=
  isInBounds_iff.2 ⟨h.le_size, h.start, h.stop⟩

section Contract

variable (hle : ∀ e ∈ edits, e.span.start ≤ e.span.stop)
include hle

theorem isInBounds_iff_isIn {e : Edit} (he : e ∈ edits) :
    e.isInBounds text = true ↔ e.span.IsIn text := by
  refine ⟨fun h => ?_, isInBounds_of_isIn⟩
  obtain ⟨hsize, hstart, hstop⟩ := isInBounds_iff.1 h
  exact ⟨hle e he, hsize, hstart, hstop⟩

/-- The first edit that does not lie in the text, as the check finds it. -/
theorem find?_eq_some_iff {e : Edit} : edits.find? (fun e => !e.isInBounds text) = some e ↔
    ∃ before after, edits = before ++ e :: after ∧ (∀ a ∈ before, a.span.IsIn text) ∧
      ¬e.span.IsIn text := by
  rw [find?_eq_some_iff_append]
  constructor
  · rintro ⟨he, before, after, rfl, hbefore⟩
    rw [Bool.not_eq_true', ← Bool.not_eq_true, isInBounds_iff_isIn hle (by simp)] at he
    refine ⟨before, after, rfl, fun a ha => ?_, he⟩
    have hin : a.isInBounds text = true := by simpa using hbefore a ha
    exact (isInBounds_iff_isIn hle (by simp [ha])).1 hin
  · rintro ⟨before, after, rfl, hbefore, he⟩
    rw [Bool.not_eq_true', ← Bool.not_eq_true, isInBounds_iff_isIn hle (by simp)]
    exact ⟨he, before, after, rfl, fun a ha => by simp [isInBounds_of_isIn (hbefore a ha)]⟩

/-- What can become of a batch. -/
theorem applyAll_cases (text : List Char) :
    (∃ e, edits.find? (fun e => !e.isInBounds text) = some e ∧
      applyAll text edits = .error (.outOfBounds e.span (byteSize text))) ∨
    (∀ e ∈ edits, e.span.IsIn text) ∧ ¬Apart edits ∧
      (∃ s t, applyAll text edits = .error (.overlapping s t)) ∨
    (∀ e ∈ edits, e.span.IsIn text) ∧ Apart edits ∧
      applyAll text edits = .ok (splice 0 text (edits.mergeSort precedes)) := by
  rw [applyAll]
  cases hfind : edits.find? (fun e => !e.isInBounds text) with
  | some e => exact .inl ⟨e, rfl, rfl⟩
  | none =>
    right
    have hin : ∀ e ∈ edits, e.span.IsIn text := by
      intro e he
      have := find?_eq_none.1 hfind e he
      exact (isInBounds_iff_isIn hle he).1 (by simpa using this)
    have hiff := firstOverlap?_eq_none_iff hle (arranged_mergeSort edits)
    cases hover : firstOverlap? (edits.mergeSort precedes) with
    | some st =>
      rw [hover] at hiff
      exact .inl ⟨hin, fun hapart => (by simpa using hiff.2 hapart), st.1, st.2, by simp [hover]⟩
    | none => exact .inr ⟨hin, hiff.1 hover, by simp [hover]⟩

theorem carriedOut_splice (hin : ∀ e ∈ edits, e.span.IsIn text) (hapart : Apart edits) :
    CarriedOut text edits (edits.mergeSort precedes)
      (splice 0 text (edits.mergeSort precedes)) := by
  have harranged := arranged_mergeSort edits
  have hlaid : Laid ([] ++ text) (byteSize []) (edits.mergeSort precedes) := by
    refine ⟨fun e he => hin e (harranged.perm.subset he), fun e _ => Nat.zero_le _, ?_⟩
    exact follows_of_neighbours (fun e he => hle e (harranged.perm.subset he)) harranged.sorted
      ((firstOverlap?_eq_none_iff hle harranged).2 hapart)
  have hassemble := assemble?_eq_splice hlaid
  refine ⟨harranged, ?_, hassemble⟩
  have heach := applyEach?_eq_assemble? hlaid
  rwa [hassemble] at heach

/-- A batch is carried out if and only if its spans lie in the text and no two of them overlap. -/
theorem applyAll_eq_ok_iff : applyAll text edits = .ok out ↔
    (∀ e ∈ edits, e.span.IsIn text) ∧ Apart edits ∧
      out = splice 0 text (edits.mergeSort precedes) := by
  rcases applyAll_cases hle text with ⟨e, hfind, h⟩ | ⟨-, hclash, s, t, h⟩ | ⟨hin, hapart, h⟩
  · obtain ⟨before, after, rfl, -, hout⟩ := (find?_eq_some_iff hle).1 hfind
    rw [h]
    constructor
    · rintro ⟨⟩
    · rintro ⟨hin, -⟩
      exact absurd (hin e (by simp)) hout
  · rw [h]
    constructor
    · rintro ⟨⟩
    · rintro ⟨-, hapart, -⟩
      exact absurd hapart hclash
  · rw [h]
    constructor
    · rintro ⟨⟩
      exact ⟨hin, hapart, rfl⟩
    · rintro ⟨-, -, rfl⟩
      rfl

/-- The first edit that does not lie in the text is the one that is named. -/
theorem applyAll_eq_outOfBounds_iff {s : Span} {n : Nat} :
    applyAll text edits = .error (.outOfBounds s n) ↔
      ∃ before e after, edits = before ++ e :: after ∧ (∀ a ∈ before, a.span.IsIn text) ∧
        ¬e.span.IsIn text ∧ s = e.span ∧ n = byteSize text := by
  constructor
  · intro h
    rcases applyAll_cases hle text with ⟨e, hfind, h'⟩ | ⟨-, -, s', t', h'⟩ | ⟨-, -, h'⟩
    · cases h.symm.trans h'
      obtain ⟨before, after, hedits, hbefore, he⟩ := (find?_eq_some_iff hle).1 hfind
      exact ⟨before, e, after, hedits, hbefore, he, rfl, rfl⟩
    · cases h.symm.trans h'
    · cases h.symm.trans h'
  · rintro ⟨before, e, after, hedits, hbefore, he, rfl, rfl⟩
    rw [applyAll, (find?_eq_some_iff hle).2 ⟨before, after, hedits, hbefore, he⟩]

/-- The order of a batch decides nothing but the order of insertions at one offset. -/
theorem applyAll_perm (hperm : edits'.Perm edits) :
    ((∃ out, applyAll text edits' = .ok out) ↔ ∃ out, applyAll text edits = .ok out) ∧
    ∀ out out', applyAll text edits = .ok out → applyAll text edits' = .ok out' →
      (∃ ordered ordered', CarriedOut text edits ordered out ∧
        CarriedOut text edits' ordered' out' ∧
        List.Forall₂ (fun a b => a.span = b.span ∧ (a.span.start < a.span.stop → a = b))
          ordered' ordered) ∧
      ((∀ n, edits'.filter (·.span = .emptyAt n) = edits.filter (·.span = .emptyAt n)) →
        out' = out) := by
  have hle' : ∀ e ∈ edits', e.span.start ≤ e.span.stop := fun e he => hle e (hperm.subset he)
  have h := arranged_mergeSort edits
  have h' := arranged_mergeSort edits'
  constructor
  · constructor
    · rintro ⟨out, hout⟩
      obtain ⟨hin, hapart, -⟩ := (applyAll_eq_ok_iff hle').1 hout
      exact ⟨_, (applyAll_eq_ok_iff hle).2
        ⟨fun e he => hin e (hperm.symm.subset he), hapart.perm hperm, rfl⟩⟩
    · rintro ⟨out, hout⟩
      obtain ⟨hin, hapart, -⟩ := (applyAll_eq_ok_iff hle).1 hout
      exact ⟨_, (applyAll_eq_ok_iff hle').2
        ⟨fun e he => hin e (hperm.subset he), hapart.perm hperm.symm, rfl⟩⟩
  · intro out out' hout hout'
    obtain ⟨hin, hapart, rfl⟩ := (applyAll_eq_ok_iff hle).1 hout
    obtain ⟨hin', hapart', rfl⟩ := (applyAll_eq_ok_iff hle').1 hout'
    refine ⟨⟨_, _, carriedOut_splice hle hin hapart, carriedOut_splice hle' hin' hapart',
      h.forall₂_of_perm h' hperm hapart⟩, fun hinsert => ?_⟩
    rw [h.eq_of_perm h' hperm hapart hle hinsert]

/-- A batch of edits with proper spans is checked completely and carried out faithfully. -/
theorem sound_applyAll (text : List Char) : Sound text edits where
  outOfBounds _ _ := applyAll_eq_outOfBounds_iff hle
  overlapping hin := by
    rw [← not_iff_not, not_clash_iff]
    rcases applyAll_cases hle text with ⟨e, hfind, -⟩ | ⟨-, hclash, s, t, h⟩ | ⟨-, hapart, h⟩
    · obtain ⟨before, after, rfl, -, hout⟩ := (find?_eq_some_iff hle).1 hfind
      exact absurd (hin e (by simp)) hout
    · exact iff_of_false (fun hnone => hnone ⟨s, t, h⟩) hclash
    · refine iff_of_true ?_ hapart
      rintro ⟨s, t, h'⟩
      cases h.symm.trans h'
  carriedOut hin hclash := by
    have hapart := not_clash_iff.1 hclash
    exact ⟨_, _, (applyAll_eq_ok_iff hle).2 ⟨hin, hapart, rfl⟩, carriedOut_splice hle hin hapart⟩
  permuted _ hperm := applyAll_perm hle hperm

end Contract

/-- A batch of spans in the text that do not overlap is carried out. -/
theorem exists_applyAll (hin : ∀ e ∈ edits, e.span.IsIn text) (hapart : Apart edits) :
    ∃ out, applyAll text edits = .ok out := by
  have hle : ∀ e ∈ edits, e.span.start ≤ e.span.stop := fun e he => (hin e he).le
  exact ⟨_, (applyAll_eq_ok_iff hle).2 ⟨hin, hapart, rfl⟩⟩

/-- A replacement with insertions at both its ends, two of them at one offset, asked for from the
right to the left, in a text with a character of two bytes. -/
def edgeEdits : List Edit :=
  [.insert 4 "!", ⟨⟨1, 3⟩, "e"⟩, .insert 1 "(", .insert 1 "[", .insert 3 "])"]

theorem sound_applyAll_edges : (∀ e ∈ edgeEdits, e.span.start ≤ e.span.stop) ∧
    Sound "aéb".toList edgeEdits ∧ applyAll "aéb".toList edgeEdits = .ok "a([e])b!".toList :=
  ⟨by decide, sound_applyAll (by decide) _, by cbv⟩

end Edit

end Stubwright
