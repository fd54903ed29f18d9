import Stubwright.ImportTable
import Mathlib

/-!
# The import table

What one addition does to the imports of a file in the making.

* `nodup_paths`, `unambiguous`: no path is added twice, no qualifier becomes ambiguous.
-/

namespace Stubwright

open List

/-! ## Numbered names -/

/-- A numbered name determines its number. -/
theorem append_toString_injective (base : String) {m n : Nat}
    (h : base ++ toString m = base ++ toString n) : m = n := by
  have digits : Nat.toDigits 10 m = Nat.toDigits 10 n := by
    have := congrArg String.toList h
    simpa [String.toList_append, Nat.toString_eq_repr, Nat.toList_repr] using this
  have := congrArg (fun ds => Nat.ofDigitChars 10 ds 0) digits
  simpa [Nat.ofDigitChars_ten_toDigits] using this

/-- A numbered name ends in a digit, so it is not the single character `c` that is no digit. -/
theorem append_toString_ne_singleton (base : String) (n : Nat) {c : Char} {s : String}
    (hs : s.toList = [c]) (hc : c.isDigit = false) : base ++ toString n ≠ s := by
  intro h
  have hlist : base.toList ++ Nat.toDigits 10 n = [c] := by
    rw [← hs, ← h, String.toList_append, Nat.toString_eq_repr, Nat.toList_repr]
  have hmem : ∀ d ∈ Nat.toDigits 10 n, d = c := by
    intro d hd
    have : d ∈ base.toList ++ Nat.toDigits 10 n := mem_append_right _ hd
    rwa [hlist, mem_singleton] at this
  obtain ⟨d, ds, hds⟩ := exists_cons_of_ne_nil (Nat.toDigits_ne_nil (n := n) (b := 10))
  have hd : d ∈ Nat.toDigits 10 n := by rw [hds]; exact mem_cons_self
  have digit := Nat.isDigit_of_mem_toDigits (by decide) (by decide) hd
  rw [hmem d hd, hc] at digit
  cases digit

namespace ImportTable

variable {q path preferred : String} {e : ImportEntry} {explicit : Bool}

/-- The numbered search ends at the first number from `n` on whose name is free, at most as many
numbers on as there are names taken. -/
theorem freeNameFrom_spec (base : String) (n : Nat) (taken : List String) :
    ∃ k, n ≤ k ∧ k ≤ n + taken.length ∧ freeNameFrom base n taken = base ++ toString k ∧
      base ++ toString k ∉ taken ∧ ∀ j, n ≤ j → j < k → base ++ toString j ∈ taken := by
  fun_induction freeNameFrom base n taken with
  | case1 n taken candidate mem ih =>
    -- the candidate is taken: the search goes on without it, from the next number
    obtain ⟨k, hnk, hk, heq, hfree, hbefore⟩ := ih
    have shorter := Names.length_without_lt mem
    refine ⟨k, by omega, by omega, heq, ?_, ?_⟩
    · intro hmem
      refine hfree (mem_filter.2 ⟨hmem, bne_iff_ne.2 fun h => ?_⟩)
      have : k = n := append_toString_injective base h
      omega
    · intro j hj hjk
      rcases Nat.eq_or_lt_of_le hj with rfl | hlt
      · exact mem
      · exact mem_of_mem_filter (hbefore j hlt hjk)
  | case2 n taken candidate free =>
    exact ⟨n, Nat.le_refl _, by omega, rfl, free, fun j hj hjn => by omega⟩

/-- The search for a free name ends: it gives the preferred name if that is free, and else that
name with the least number from 2 on that makes it free, which is at most two more than the number
of names taken. -/
theorem freeName_spec (preferred : String) (taken : List String) :
    freeName preferred taken ∉ taken ∧
      (preferred ∉ taken ∧ freeName preferred taken = preferred ∨
        preferred ∈ taken ∧ ∃ k, 2 ≤ k ∧ k ≤ 2 + taken.length ∧
          freeName preferred taken = preferred ++ toString k ∧
          ∀ j, 2 ≤ j → j < k → preferred ++ toString j ∈ taken) := by
  rw [freeName]
  by_cases hmem : preferred ∈ taken
  · rw [if_pos hmem]
    obtain ⟨k, h2, hk, heq, hfree, hbefore⟩ := freeNameFrom_spec preferred 2 taken
    exact ⟨heq ▸ hfree, .inr ⟨hmem, k, h2, hk, heq, hbefore⟩⟩
  · rw [if_neg hmem]
    exact ⟨hmem, .inl ⟨hmem, rfl⟩⟩

/-! ## What a table binds -/

variable {p : Program} {t : ImportTable}

/-- No qualifier is bound to two paths. -/
def Unambiguous (p : Program) (t : ImportTable) : Prop :=
  ∀ e ∈ t.entries, ∀ e' ∈ t.entries, ∀ q ∈ p.boundName? e.name e.path,
    p.boundName? e'.name e'.path = some q → e.path = e'.path

instance (p : Program) (t : ImportTable) : Decidable (t.Unambiguous p) :=
  inferInstanceAs (Decidable (∀ e ∈ t.entries, ∀ e' ∈ t.entries,
    ∀ q ∈ p.boundName? e.name e.path, p.boundName? e'.name e'.path = some q → e.path = e'.path))

/-- A qualifier is bound exactly if some entry binds it. -/
theorem mem_boundNames :
    q ∈ t.boundNames p ↔ ∃ e ∈ t.entries, p.boundName? e.name e.path = some q :=
  mem_filterMap

/-- The three outcomes for a path: the first entry for it that binds a name gives the qualifier; if
none binds a name, an entry with a dot makes the package's types visible; else there is no
binding. -/
theorem binding?_cases (t : ImportTable) (p : Program) (path : String) :
    (∃ q, t.binding? p path = some (.named q) ∧
      (t.entries.filter fun e => e.path == path).findSome? (fun e => p.boundName? e.name e.path)
        = some q) ∨
    (∀ e ∈ t.entries, e.path = path → p.boundName? e.name e.path = none) ∧
      (t.binding? p path = some .dot ∧ (∃ e ∈ t.entries, e.path = path ∧ e.name = some ".") ∨
        t.binding? p path = none ∧ ∀ e ∈ t.entries, e.path = path → e.name ≠ some ".") := by
  simp only [binding?]
  cases h : (t.entries.filter fun e => e.path == path).findSome?
    fun e => p.boundName? e.name e.path with
  | some q => exact .inl ⟨q, rfl, rfl⟩
  | none =>
    have hnone := findSome?_eq_none_iff.1 h
    simp only [mem_filter, beq_iff_eq, and_imp] at hnone
    refine .inr ⟨hnone, ?_⟩
    by_cases hany : ((t.entries.filter fun e => e.path == path).any fun e => e.name == some ".")
    · obtain ⟨e, he, hname⟩ := any_eq_true.1 hany
      obtain ⟨hmem, hpath⟩ := mem_filter.1 he
      exact .inl ⟨if_pos hany, e, hmem, beq_iff_eq.1 hpath, beq_iff_eq.1 hname⟩
    · refine .inr ⟨if_neg hany, fun e hmem hpath hname => hany ?_⟩
      exact any_eq_true.2
        ⟨e, mem_filter.2 ⟨hmem, beq_iff_eq.2 hpath⟩, beq_iff_eq.2 hname⟩

theorem exists_of_binding?_named (h : t.binding? p path = some (.named q)) :
    ∃ e ∈ t.entries, e.path = path ∧ p.boundName? e.name e.path = some q := by
  rcases t.binding?_cases p path with ⟨q', hq', hfind⟩ | ⟨-, ⟨hdot, -⟩ | ⟨hnone, -⟩⟩
  · obtain rfl : q' = q := by rw [hq'] at h; cases h; rfl
    obtain ⟨e, he, hq⟩ := exists_of_findSome?_eq_some hfind
    obtain ⟨hmem, hpath⟩ := mem_filter.1 he
    exact ⟨e, hmem, beq_iff_eq.1 hpath, hq⟩
  · rw [hdot] at h; cases h
  · rw [hnone] at h; cases h

theorem of_binding?_eq_none (h : t.binding? p path = none) :
    ∀ e ∈ t.entries, e.path = path → p.boundName? e.name e.path = none ∧ e.name ≠ some "." := by
  rcases t.binding?_cases p path with ⟨q, hq, -⟩ | ⟨hall, ⟨hdot, -⟩ | ⟨-, hno⟩⟩
  · rw [hq] at h; cases h
  · rw [hdot] at h; cases h
  · exact fun e hmem hpath => ⟨hall e hmem hpath, hno e hmem hpath⟩

theorem exists_of_binding?_dot (h : t.binding? p path = some .dot) :
    ∃ e ∈ t.entries, e.path = path ∧ e.name = some "." := by
  rcases t.binding?_cases p path with ⟨q, hq, -⟩ | ⟨-, ⟨-, hex⟩ | ⟨hnone, -⟩⟩
  · rw [hq] at h; cases h
  · exact hex
  · rw [hnone] at h; cases h

/-- An entry that binds a name gives a path that had no binding its qualifier. -/
theorem binding?_append_of_none (hnone : t.binding? p e.path = none)
    (hq : p.boundName? e.name e.path = some q) :
    (ImportTable.mk (t.entries ++ [e])).binding? p e.path = some (.named q) := by
  have hblank : (t.entries.filter fun e' => e'.path == e.path).findSome?
      (fun e' => p.boundName? e'.name e'.path) = none := by
    rw [findSome?_eq_none_iff]
    intro e' he'
    obtain ⟨hmem, hpath⟩ := mem_filter.1 he'
    exact (of_binding?_eq_none hnone e' hmem (beq_iff_eq.1 hpath)).1
  simp [binding?, filter_append, findSome?_append, hblank, hq]

/-- Where no qualifier is ambiguous, the qualifier that some entry binds stands for the path of
that entry. -/
theorem Unambiguous.boundPath?_eq (h : t.Unambiguous p) (he : e ∈ t.entries)
    (hq : p.boundName? e.name e.path = some q) : t.boundPath? p q = some e.path := by
  unfold boundPath?
  cases hf : t.entries.find? fun e => p.boundName? e.name e.path == some q with
  | none =>
    have := find?_eq_none.1 hf e he
    simp [hq] at this
  | some e' =>
    have hq' : p.boundName? e'.name e'.path = some q := by simpa using find?_some hf
    exact congrArg some (h e' (mem_of_find?_eq_some hf) e he q hq' hq)

/-! ## Adding an import -/

/-- The name that an import is to be added under: one that another file gives the package, which is
then spelled out, or the package's own. -/
def Preferred (p : Program) (path preferred : String) (explicit : Bool) : Prop :=
  explicit = true ∧ preferred ≠ "_" ∧ preferred ≠ "." ∨
    explicit = false ∧ preferred = p.packageName path

/-- A qualifier that is neither blank nor a dot is bound where it is spelled out. -/
theorem boundName?_some (hblank : q ≠ "_") (hdot : q ≠ ".") :
    p.boundName? (some q) path = some q := by
  simp [Program.boundName?, hblank, hdot]

/-- The name that `bind` writes for an import binds the qualifier that it found. -/
theorem boundName?_written (taken : List String) (h : Preferred p path preferred explicit) :
    p.boundName? (if explicit || freeName preferred taken != p.packageName path then
      some (freeName preferred taken) else none) path = some (freeName preferred taken) := by
  split
  · rename_i hwritten
    rcases (freeName_spec preferred taken).2 with ⟨-, heq⟩ | ⟨-, k, -, -, heq, -⟩
    · -- the preferred name is free; it is spelled out only if another file spells it out
      rcases h with ⟨-, hblank, hdot⟩ | ⟨hexplicit, hown⟩
      · rw [heq]; exact boundName?_some hblank hdot
      · rw [heq, hexplicit, hown] at hwritten
        simp at hwritten
    · rw [heq]
      exact boundName?_some (append_toString_ne_singleton preferred k (c := '_') rfl rfl)
        (append_toString_ne_singleton preferred k (c := '.') rfl rfl)
  · rename_i hnot
    have hsame : freeName preferred taken = p.packageName path := by
      simp only [Bool.or_eq_true, bne_iff_ne, ne_eq, not_or, not_not] at hnot
      exact hnot.2
    rw [hsame]
    rfl

/-- Adding an import for a path without a binding: the new entry comes last, it binds the qualifier
that is given back, and that qualifier is neither reserved nor bound before. -/
theorem bind_spec (reserved : Names) (hfree : t.binding? p path = none)
    (h : Preferred p path preferred explicit) :
    ∃ name, (t.bind p reserved path preferred explicit).2.entries
        = t.entries ++ [⟨name, path, true⟩] ∧
      p.boundName? name path = some (t.bind p reserved path preferred explicit).1 ∧
      (t.bind p reserved path preferred explicit).1 ∉ reserved ∧
      (t.bind p reserved path preferred explicit).1 ∉ t.boundNames p ∧
      name ≠ some "." := by
  have hbound := boundName?_written (reserved ++ t.boundNames p) h
  have hnew := (freeName_spec preferred (reserved ++ t.boundNames p)).1
  simp only [mem_append, not_or] at hnew
  simp only [bind]
  generalize freeName preferred (reserved ++ t.boundNames p) = q at hbound hnew ⊢
  generalize (if explicit || q != p.packageName path then some q else none) = name at hbound ⊢
  refine ⟨name, ?_, hbound, hnew.1, hnew.2, ?_⟩
  · rw [add, if_neg]
    intro hany
    obtain ⟨e, he, hsame⟩ := any_eq_true.1 hany
    obtain ⟨hpath, hname⟩ : e.path = path ∧ e.name = name := by simpa using hsame
    have := (of_binding?_eq_none hfree e he hpath).1
    rw [hpath, hname, hbound] at this
    cases this
  · rintro rfl
    cases hbound

/-! ## Tables that grow -/

/-- An entry may be added to a table: it is marked as added, nothing refers to its path yet, and it
binds a name that is neither reserved nor bound. -/
structure Adds (p : Program) (reserved : Names) (t : ImportTable) (e : ImportEntry) : Prop where
  /-- The entry is marked as added. -/
  added : e.added = true
  /-- Its path has neither a qualifier nor a dot. -/
  unbound : t.binding? p e.path = none
  /-- The name it binds is new. -/
  fresh : ∃ q, p.boundName? e.name e.path = some q ∧ q ∉ reserved ∧ q ∉ t.boundNames p
  /-- It is no import with a dot. -/
  notDot : e.name ≠ some "."

/-- A table comes from `t` by additions, one after the other. -/
inductive Grows (p : Program) (reserved : Names) (t : ImportTable) : ImportTable → Prop
  /-- Nothing was added. -/
  | refl : Grows p reserved t t
  /-- One more entry was added. -/
  | add {t' : ImportTable} {e : ImportEntry} : Grows p reserved t t' → t'.Adds p reserved e →
    Grows p reserved t ⟨t'.entries ++ [e]⟩

/-- What `bind` does is an addition. -/
theorem grows_bind (reserved : Names) (hfree : t.binding? p path = none)
    (h : Preferred p path preferred explicit) :
    t.Grows p reserved (t.bind p reserved path preferred explicit).2 := by
  obtain ⟨name, hentries, hbound, hres, hnew, hdot⟩ := bind_spec reserved hfree h
  have hadd : t.Adds p reserved ⟨name, path, true⟩ := ⟨rfl, hfree, ⟨_, hbound, hres, hnew⟩, hdot⟩
  have heq : (t.bind p reserved path preferred explicit).2
      = ⟨t.entries ++ [⟨name, path, true⟩]⟩ := by
    rw [← hentries]
  rw [heq]
  exact .add .refl hadd

namespace Grows

variable {reserved : Names} {t' t'' : ImportTable} {adds : List ImportEntry}

theorem trans (h : t.Grows p reserved t') (h' : t'.Grows p reserved t'') :
    t.Grows p reserved t'' := by
  induction h' with
  | refl => exact h
  | add _ hadd ih => exact .add ih hadd

/-- What was in the table stays, in place and in order, and what follows is marked as added. -/
theorem exists_append (h : t.Grows p reserved t') :
    ∃ adds, t'.entries = t.entries ++ adds ∧ ∀ e ∈ adds, e.added = true := by
  induction h with
  | refl => exact ⟨[], by simp, by simp⟩
  | @add t' e _ hadd ih =>
    obtain ⟨adds, heq, hall⟩ := ih
    refine ⟨adds ++ [e], by simp [heq], ?_⟩
    intro e' he'
    rcases mem_append.1 he' with he' | he'
    · exact hall e' he'
    · rw [mem_singleton.1 he']; exact hadd.added

/-- Every entry of the growth was added to the table as it stood before that entry. -/
theorem adds_of_split (h : t.Grows p reserved t') {before after : List ImportEntry}
    (hsplit : t'.entries = t.entries ++ (before ++ e :: after)) :
    (ImportTable.mk (t.entries ++ before)).Adds p reserved e := by
  induction h generalizing after with
  | refl =>
    have := congrArg List.length hsplit
    simp at this
  | @add t' last _ hadd ih =>
    rcases eq_nil_or_concat after with rfl | ⟨after, last', rfl⟩
    · -- the entry is the last one: the table before it is all the rest
      have hend : t'.entries ++ [last] = (t.entries ++ before) ++ [e] := by
        rw [append_assoc]; exact hsplit
      obtain ⟨hbefore, rfl⟩ := append_singleton_inj.1 hend
      rw [← hbefore]
      exact hadd
    · have hend : t'.entries ++ [last] = (t.entries ++ (before ++ e :: after)) ++ [last'] := by
        rw [concat_eq_append] at hsplit
        simpa using hsplit
      exact ih (append_singleton_inj.1 hend).1

theorem exists_boundName? (h : t.Grows p reserved t')
    (heq : t'.entries = t.entries ++ adds) (he : e ∈ adds) :
    ∃ q, p.boundName? e.name e.path = some q ∧ q ∉ reserved := by
  obtain ⟨before, after, rfl⟩ := append_of_mem he
  obtain ⟨q, hq, hres, -⟩ := (h.adds_of_split heq).fresh
  exact ⟨q, hq, hres⟩

/-- No path is added twice. -/
theorem nodup_paths (h : t.Grows p reserved t')
    (heq : t'.entries = t.entries ++ adds) : (adds.map (·.path)).Nodup := by
  induction h generalizing adds with
  | refl =>
    obtain rfl : adds = [] := by simpa using heq
    exact nodup_nil
  | @add t' e hgrows hadd ih =>
    obtain ⟨adds', heq', -⟩ := hgrows.exists_append
    obtain rfl : adds = adds' ++ [e] := by
      rw [heq', append_assoc] at heq
      exact (append_cancel_left heq).symm
    rw [map_append, nodup_append]
    refine ⟨ih heq', by simp, ?_⟩
    intro path hmem path' hlast hsame
    -- an earlier entry for the same path would have given that path a qualifier
    obtain ⟨e₀, he₀, rfl⟩ := mem_map.1 hmem
    have hpath : e₀.path = e.path := hsame.trans (mem_singleton.1 hlast)
    obtain ⟨q, hq, -⟩ := hgrows.exists_boundName? heq' he₀
    have hmem₀ : e₀ ∈ t'.entries := by rw [heq']; exact mem_append_right _ he₀
    rw [(of_binding?_eq_none hadd.unbound e₀ hmem₀ hpath).1] at hq
    cases hq

/-- A path keeps the binding that it has. -/
theorem binding?_eq (h : t.Grows p reserved t') {b : Binding} (hb : t.binding? p path = some b) :
    t'.binding? p path = some b := by
  induction h with
  | refl => exact hb
  | @add t' e _ hadd ih =>
    have hne : e.path ≠ path := by
      rintro rfl
      rw [hadd.unbound] at ih
      cases ih
    have hother : (e.path == path) = false := beq_eq_false_iff_ne.2 hne
    rw [← ih]
    simp [binding?, filter_append, hother]

/-- No import with a dot is added. -/
theorem exists_dot_iff (h : t.Grows p reserved t') :
    (∃ e ∈ t'.entries, e.path = path ∧ e.name = some ".") ↔
      ∃ e ∈ t.entries, e.path = path ∧ e.name = some "." := by
  induction h with
  | refl => rfl
  | @add t' e _ hadd ih =>
    rw [← ih]
    constructor
    · rintro ⟨e', he', hpath, hname⟩
      rcases mem_append.1 he' with he' | he'
      · exact ⟨e', he', hpath, hname⟩
      · rw [mem_singleton.1 he'] at hname
        exact absurd hname hadd.notDot
    · rintro ⟨e', he', hdot⟩
      exact ⟨e', mem_append_left _ he', hdot⟩

/-- A path that is seen through a dot only was so before. -/
theorem binding?_dot (h : t.Grows p reserved t') (hdot : t'.binding? p path = some .dot) :
    t.binding? p path = some .dot := by
  cases hb : t.binding? p path with
  | some b => rw [h.binding?_eq hb] at hdot; exact hdot
  | none =>
    obtain ⟨e, he, hpath, hname⟩ := h.exists_dot_iff.1 (exists_of_binding?_dot hdot)
    exact absurd hname (of_binding?_eq_none hb e he hpath).2

/-- Where no qualifier was ambiguous, none becomes so. -/
theorem unambiguous (h : t.Grows p reserved t') (ht : t.Unambiguous p) : t'.Unambiguous p := by
  induction h with
  | refl => exact ht
  | @add t' e _ hadd ih =>
    obtain ⟨q, hq, -, hnew⟩ := hadd.fresh
    -- an old entry that bound the new qualifier would make it an old one
    have hold : ∀ e' ∈ t'.entries, p.boundName? e'.name e'.path ≠ some q :=
      fun e' he' hq' => hnew (mem_boundNames.2 ⟨e', he', hq'⟩)
    intro e₁ h₁ e₂ h₂ r hr₁ hr₂
    rcases mem_append.1 h₁ with h₁ | h₁ <;> rcases mem_append.1 h₂ with h₂ | h₂
    · exact ih e₁ h₁ e₂ h₂ r hr₁ hr₂
    · rw [mem_singleton.1 h₂, hq] at hr₂
      cases hr₂
      exact absurd hr₁ (hold e₁ h₁)
    · rw [mem_singleton.1 h₁, hq] at hr₁
      cases hr₁
      exact absurd hr₂ (hold e₂ h₂)
    · rw [mem_singleton.1 h₁, mem_singleton.1 h₂]

end Grows

end ImportTable

end Stubwright
