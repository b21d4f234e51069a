import Mathlib.Data.List.Perm.Subperm
import CompositeScan.Proofs.Selection.Leap
import CompositeScan.Proofs.Store.Ahead
import CompositeScan.Scan.Search

/-!
# A search finds the first row in range

A search is right if it comes to the first of the rows ahead whose key is admitted, or to the end
if there is none (`Search.Right`). The wanted entries among the rows ahead (`Selection.wanted`) are
what every move leaves as they are: a move only drops rows that are not wanted.

That is so as long as no leap from a stored key passes over a key that is wanted. Where leaps are
known to spare some keys only, a search loses none of these: so all is said here of the keys to be
`kept`, and the leaps from the rows ahead are asked to spare those (`Search.LeapsSpare`). If all
stored keys conform, they are all kept (`Search.Conform.leapsSpare`).

## The invariant of the chase

A target is not sought at once but by its leading parts, so a search that chases a target has to
remember why that is safe: every wanted entry ahead that is kept is at or behind the target, or is
one of its leading parts (`Search.Spared`). A leap establishes this; seeking a leading part keeps
it, since no such entry is before the part sought (`Key.next_le`).
-/

namespace CompositeScan

namespace Selection

/-! ## Wanted entries -/

/-- The entry of a row whose key is admitted. -/
def entryOf? (s : Selection) (row : Row) : Option Entry :=
  match Key.ofBytes? row.key with
  | some key => if s.Admits key then some ⟨key, row.value⟩ else none
  | none => none

/-- The entries of the rows whose keys are admitted. -/
def wanted (s : Selection) (rows : List Row) : List Entry := rows.filterMap s.entryOf?

variable {s : Selection} {row : Row} {rows : List Row} {entry : Entry}

theorem entryOf?_eq_some_iff :
    s.entryOf? row = some entry ↔
      Key.ofBytes? row.key = some entry.key ∧ s.Admits entry.key ∧ entry.value = row.value := by
  obtain ⟨key, value⟩ := entry
  rw [entryOf?]
  cases Key.ofBytes? row.key with
  | none => simp
  | some k =>
    by_cases hadm : s.Admits k
    · simp only [hadm, if_true, Option.some_inj, Entry.mk.injEq]
      constructor
      · rintro ⟨rfl, rfl⟩
        exact ⟨rfl, hadm, rfl⟩
      · rintro ⟨rfl, -, rfl⟩
        exact ⟨rfl, rfl⟩
    · simp only [hadm, if_false, reduceCtorEq, Option.some_inj, false_iff]
      rintro ⟨rfl, hadm', -⟩
      exact hadm hadm'

theorem mem_wanted : entry ∈ s.wanted rows ↔ ∃ row ∈ rows, s.entryOf? row = some entry :=
  List.mem_filterMap

theorem wanted_cons_of_none (h : s.entryOf? row = none) :
    s.wanted (row :: rows) = s.wanted rows :=
  List.filterMap_cons_none h

theorem wanted_cons_of_some (h : s.entryOf? row = some entry) :
    s.wanted (row :: rows) = entry :: s.wanted rows :=
  List.filterMap_cons_some h

end Selection

namespace Search

open Selection

/-- Every stored key that is text conforms. -/
def Conform (V : Vocabularies) (fields : List Field) (rows : List Row) : Prop :=
  ∀ row ∈ rows, ∀ key, Key.ofBytes? row.key = some key → key.Conforms V fields

theorem forall_key_of_exists {P : Key → Prop} {rows : List Row}
    (h : ∀ row ∈ rows, ∃ key, Key.ofBytes? row.key = some key ∧ P key) :
    ∀ row ∈ rows, ∀ key, Key.ofBytes? row.key = some key → P key := by
  intro row hrow key hkey
  obtain ⟨key', hkey', hP⟩ := h row hrow
  rw [hkey, Option.some_inj] at hkey'
  exact hkey' ▸ hP

theorem Conform.of_forall_exists {V : Vocabularies} {fields : List Field} {rows : List Row}
    (h : ∀ row ∈ rows, ∃ key, Key.ofBytes? row.key = some key ∧ key.Conforms V fields) :
    Conform V fields rows :=
  forall_key_of_exists h

/-- From the rows, leaps spare the keys further on that are admitted and to be kept. -/
def LeapsSpare (s : Selection) (kept : Key → Prop) (rows : List Row) : Prop :=
  ∀ row ∈ rows, ∀ k, Key.ofBytes? row.key = some k → ∀ k', kept k' → s.Admits k' → k < k' →
    s.LeapSpares k k'

theorem LeapsSpare.mono {s : Selection} {kept : Key → Prop} {rows rows' : List Row}
    (h : LeapsSpare s kept rows) (hsub : rows' ⊆ rows) : LeapsSpare s kept rows' :=
  fun row hrow ↦ h row (hsub hrow)

/-- Where all stored keys conform, leaps spare the keys that do. -/
theorem Conform.leapsSpare {V : Vocabularies} {s : Selection} {rows : List Row}
    (h : Conform V s.fields rows) (hlaw : s.LawfulColumns V) :
    LeapsSpare s (·.Conforms V s.fields) rows := by
  intro row hrow k hk k' hk' hadm hlt
  have hconforms := h row hrow k hk
  have hpass := hlaw.passableKey hconforms.inVocabulary hconforms.movesLast
  exact leapSpares hlaw.sparing hpass hadm hk'.inVocabulary hlt

/-! ## Entries that are kept -/

/-- What is found are the entries, but for some whose keys need not be kept. -/
structure Keeps (kept : Key → Prop) (entries found : List Entry) : Prop where
  /-- Only entries are found, in their order. -/
  sublist : found.Sublist entries
  /-- Those to be kept are found. -/
  mem : ∀ entry ∈ entries, kept entry.key → entry ∈ found

namespace Keeps

variable {kept : Key → Prop} {entries entries' found : List Entry}

theorem refl (entries : List Entry) : Keeps kept entries entries :=
  ⟨List.Sublist.refl entries, fun _ h _ ↦ h⟩

theorem trans (h : Keeps kept entries entries') (h' : Keeps kept entries' found) :
    Keeps kept entries found :=
  ⟨h'.sublist.trans h.sublist, fun entry hmem hkept ↦ h'.mem entry (h.mem entry hmem hkept) hkept⟩

theorem cons (h : Keeps kept entries found) (entry : Entry) :
    Keeps kept (entry :: entries) (entry :: found) := by
  refine ⟨h.sublist.cons_cons entry, fun e he hkept ↦ ?_⟩
  rcases List.mem_cons.1 he with rfl | he
  · exact List.mem_cons_self
  · exact List.mem_cons_of_mem entry (h.mem e he hkept)

theorem nil (h : ∀ entry ∈ entries, ¬kept entry.key) : Keeps kept entries [] :=
  ⟨List.nil_sublist entries, fun entry hmem hkept ↦ absurd hkept (h entry hmem)⟩

theorem eq_of_forall (h : Keeps kept entries found) (hnodup : entries.Nodup)
    (hall : ∀ entry ∈ entries, kept entry.key) : found = entries := by
  apply h.sublist.eq_of_length_le
  exact (hnodup.subperm fun entry hmem ↦ h.mem entry hmem (hall entry hmem)).length_le

end Keeps

theorem keeps_filter {s : Selection} {kept : Key → Prop} {rows : List Row} {p : Row → Bool}
    (h : ∀ row ∈ rows, ∀ entry, s.entryOf? row = some entry → kept entry.key → p row = true) :
    Keeps kept (s.wanted rows) (s.wanted (rows.filter p)) := by
  refine ⟨List.filter_sublist.filterMap _, fun entry hentry hkept ↦ ?_⟩
  obtain ⟨row, hrow, hrowentry⟩ := mem_wanted.1 hentry
  have hp := h row hrow entry hrowentry hkept
  exact mem_wanted.2 ⟨row, List.mem_filter.2 ⟨hrow, hp⟩, hrowentry⟩

/-! ## What a search comes to -/

/-- Why a search over rows broke off where its cursor now is: the last seek or the last advance of
the cursor failed, or it stands at a row whose key is not text, or from whose key a leap needs a
value that does not exist. -/
inductive Cause (s : Selection) (faults : FaultPlan) (rows : List Row) (c : Cursor) :
    Error → Prop where
  /-- The last seek failed. -/
  | seek {n failure} (hlast : c.attempts.seeks = n + 1) (h : faults.seek n = some failure) :
    Cause s faults rows c (.storage failure)
  /-- The last advance failed. -/
  | advance {n failure} (hlast : c.attempts.advances = n + 1)
    (h : faults.advance n = some failure) : Cause s faults rows c (.storage failure)
  /-- The key of the row is not text. -/
  | encoding {row} (hrow : row ∈ rows) (hcur : c.current = some row)
    (h : Key.ofBytes? row.key = none) : Cause s faults rows c (.invalidEncoding row.key)
  /-- An excluded lower bound has no value after it, and a leap from the row has to move past it. -/
  | stuck {row key e} (hrow : row ∈ rows) (hcur : c.current = some row)
    (hkey : Key.ofBytes? row.key = some key) (hleap : s.leapAfter key = .error e)
    (h : Leap.Stuck s.attr s.columns e) : Cause s faults rows c e

theorem Cause.mono {s : Selection} {faults : FaultPlan} {rows rows' : List Row} {c : Cursor}
    {e : Error} (h : Cause s faults rows c e) (hsub : rows ⊆ rows') :
    Cause s faults rows' c e := by
  cases h with
  | seek hlast h => exact .seek hlast h
  | advance hlast h => exact .advance hlast h
  | encoding hrow hcur h => exact .encoding (hsub hrow) hcur h
  | stuck hrow hcur hkey hleap h => exact .stuck (hsub hrow) hcur hkey hleap h

theorem Cause.stuck_of_never {s : Selection} {rows : List Row} {c : Cursor} {e : Error}
    (h : Cause s .never rows c e) (htext : ∀ row ∈ rows, ∃ key, Key.ofBytes? row.key = some key) :
    Leap.Stuck s.attr s.columns e := by
  cases h with
  | seek hlast h => cases h
  | advance hlast h => cases h
  | encoding hrow hcur h =>
    obtain ⟨key, hkey⟩ := htext _ hrow
    rw [h] at hkey
    cases hkey
  | stuck hrow hcur hkey hleap h => exact h

/-- It does not where there is a value after every lower bound that is left out. -/
theorem not_cause_of_never {s : Selection} {rows : List Row}
    (hnext : ∀ c ∈ s.columns, ∀ d, c.field.domain? = some d → ∀ lo, c.bound.lower = .excluded lo →
      ∃ next, d.successor lo = .ok next)
    (htext : ∀ row ∈ rows, ∃ key, Key.ofBytes? row.key = some key) (c : Cursor) (e : Error) :
    ¬Cause s .never rows c e := by
  intro he
  obtain ⟨c, hc, d, lo, cause, hd, hlo, hsucc, -⟩ := he.stuck_of_never htext
  obtain ⟨next, hok⟩ := hnext c hc d hd lo hlo
  rw [hsucc] at hok
  cases hok

/-- The second cursor is where the first one may come to by moving on. -/
structure Onward (c c' : Cursor) : Prop extends c.SameStore c' where
  /-- The range ends where it did. -/
  stop : c'.stop = c.stop
  /-- No rows are added. -/
  ahead : c'.ahead ⊆ c.ahead

theorem Onward.refl (c : Cursor) : Onward c c := ⟨.refl c, rfl, List.Subset.refl _⟩

theorem Onward.trans {c₁ c₂ c₃ : Cursor} (h : Onward c₁ c₂) (h' : Onward c₂ c₃) :
    Onward c₁ c₃ :=
  ⟨h.toSameStore.trans h'.toSameStore, h'.stop.trans h.stop, List.Subset.trans h'.ahead h.ahead⟩

/-- What a search may come to from where a cursor stands. -/
def Right (s : Selection) (kept : Key → Prop) (c : Cursor) : Finding × Cursor → Prop
  | (.found entry, c') =>
    Keeps kept (s.wanted c.ahead) (entry :: s.wanted c'.ahead.tail) ∧ Onward c c'
  | (.exhausted, _) => Keeps kept (s.wanted c.ahead) []
  | (.failed e, c') => Cause s c.faults c.ahead c' e

/-- A search from further on comes to the same, if nothing to be kept was passed over. -/
theorem Right.of_onward {s : Selection} {kept : Key → Prop} {c c' : Cursor}
    {outcome : Finding × Cursor} (h : Right s kept c' outcome) (hon : Onward c c')
    (hkeeps : Keeps kept (s.wanted c.ahead) (s.wanted c'.ahead)) : Right s kept c outcome := by
  obtain ⟨finding, c''⟩ := outcome
  cases finding with
  | found entry => exact ⟨hkeeps.trans h.1, hon.trans h.2⟩
  | exhausted => exact hkeeps.trans h
  | failed e =>
    refine Cause.mono ?_ hon.ahead
    rw [← hon.faults]
    exact h

/-- Every wanted entry ahead that is to be kept is at or behind the target, or is one of its leading
parts. -/
def Spared (s : Selection) (kept : Key → Prop) (target : Key) (rows : List Row) : Prop :=
  ∀ entry ∈ s.wanted rows, kept entry.key → target ≤ entry.key ∨ entry.key.LeadOf target

/-- What a search relies on as it moves. -/
structure Ready (goal : Goal) (kept : Key → Prop) (pace : Pace) (c : Cursor) : Prop where
  /-- The storage sees the range to its end. -/
  stop : ∃ range, goal.range = some range ∧ c.stop = range.upper.map Key.bytes
  /-- Leaps from the rows ahead spare what is to be kept. -/
  leaps : LeapsSpare goal.selection kept c.ahead
  /-- A target that is chased can be sought. -/
  spared : ∀ target, pace = .chasing target → Spared goal.selection kept target c.ahead

/-- What a move of a search preserves. -/
def Move.Sound (goal : Goal) (kept : Key → Prop) (c : Cursor) : Move → Prop
  | .stop finding c' => Right goal.selection kept c (finding, c')
  | .goOn pace' c' =>
    Ready goal kept pace' c' ∧ Onward c c' ∧
      Keeps kept (goal.selection.wanted c.ahead) (goal.selection.wanted c'.ahead)

section Moves

variable {goal : Goal} {kept : Key → Prop} {pace : Pace} {c : Cursor} {row : Row} {key : Key}

/-- Of the wanted entries ahead, none is at a row that is not wanted, where the cursor stands. -/
theorem lt_of_mem_wanted {range : KeyRange} (hstop : c.stop = range.upper.map Key.bytes)
    (hcur : c.current = some row) (hkey : Key.ofBytes? row.key = some key)
    (hrow : goal.selection.entryOf? row = none) {entry : Entry}
    (hentry : entry ∈ goal.selection.wanted c.ahead) :
    key < entry.key ∧ range.upper.Above entry.key := by
  rw [Cursor.ahead_of_current hcur, wanted_cons_of_none hrow, mem_wanted] at hentry
  obtain ⟨r, hr, hentry⟩ := hentry
  obtain ⟨hbytes, -, -⟩ := entryOf?_eq_some_iff.1 hentry
  obtain ⟨-, hlt, habove⟩ := Store.mem_rowsIn.1 hr
  rw [← Key.bytes_eq_of_ofBytes? hbytes] at hlt habove
  rw [← Key.bytes_eq_of_ofBytes? hkey] at hlt
  rw [hstop] at habove
  refine ⟨Key.bytes_lt_bytes_iff.1 hlt, ?_⟩
  exact (Interval.bytes_mem_map_iff (r := ⟨.unbounded, range.upper⟩)).1 ⟨trivial, habove⟩ |>.2

theorem stepOver_sound (hready : Ready goal kept pace c) (hcur : c.current = some row)
    (hrow : goal.selection.entryOf? row = none) (misses : ℕ) :
    (stepOver c (.stepping misses)).Sound goal kept c := by
  rw [stepOver]
  split
  · next failure c' hadv =>
    obtain ⟨n, hlast, hn⟩ := Cursor.faults_of_advance hadv
    exact Cause.advance hlast hn
  · next c' hadv =>
    obtain ⟨hsame, hstop, hahead⟩ := Cursor.advance_eq_none hadv
    have hsub : c'.ahead ⊆ c.ahead := hahead ▸ List.Sublist.subset (List.tail_sublist _)
    refine ⟨⟨?_, hready.leaps.mono hsub, fun target h ↦ Pace.noConfusion h⟩,
      ⟨hsame, hstop, hsub⟩, ?_⟩
    · rw [hstop]
      exact hready.stop
    · rw [hahead, Cursor.ahead_of_current hcur, List.tail_cons, wanted_cons_of_none hrow]
      exact .refl _

theorem leapTo_sound {target : Key} (hready : Ready goal kept pace c) (hcur : c.current = some row)
    (hkey : Key.ofBytes? row.key = some key) (hrow : goal.selection.entryOf? row = none)
    (hlt : key < target) (hspared : Spared goal.selection kept target c.ahead) :
    (leapTo goal c key target).Sound goal kept c := by
  obtain ⟨range, hrange, hstop⟩ := hready.stop
  -- The leading part that is sought is at or before everything to be kept.
  have hnext : ∀ entry ∈ goal.selection.wanted c.ahead, kept entry.key →
      (target.leadAfter? key).getD target ≤ entry.key := fun entry hentry hkept ↦
    Key.next_le (lt_of_mem_wanted hstop hcur hkey hrow hentry).1 (hspared entry hentry hkept)
  simp only [leapTo, hrange]
  split
  · split
    · next failure c' hseek =>
      obtain ⟨n, hlast, hn⟩ := Cursor.faults_of_seek hseek
      exact Cause.seek hlast hn
    · next c' hseek =>
      obtain ⟨hsame, hstop', -⟩ := Cursor.seek_eq_none hseek
      have hahead := Cursor.ahead_seek_dropBefore hseek hcur
        (by rw [← Key.bytes_eq_of_ofBytes? hkey]; exact Key.bytes_lt_bytes (lt_getD_leadAfter? hlt))
        hstop
      have hkeeps : Keeps kept (goal.selection.wanted c.ahead)
          (goal.selection.wanted c'.ahead) := by
        rw [hahead]
        refine keeps_filter fun r hr entry hentry hkept ↦ ?_
        have hle := hnext entry (mem_wanted.2 ⟨r, hr, hentry⟩) hkept
        rw [← Key.bytes_le_bytes_iff, Key.bytes_eq_of_ofBytes? (entryOf?_eq_some_iff.1 hentry).1]
          at hle
        simpa using hle
      have hsub : c'.ahead ⊆ c.ahead := hahead ▸ List.filter_subset_self _
      refine ⟨⟨⟨range, hrange, hstop'⟩, hready.leaps.mono hsub, ?_⟩,
        ⟨hsame, hstop'.trans hstop.symm, hsub⟩, hkeeps⟩
      -- The chase goes on for the same target.
      rintro target' ⟨⟩ entry hentry
      exact hspared entry (hkeeps.sublist.subset hentry)
  · next habove =>
    -- If it is past the end of the range, so is all that is to be kept.
    refine Keeps.nil fun entry hentry hkept ↦ habove ?_
    exact (lt_of_mem_wanted hstop hcur hkey hrow hentry).2.mono (hnext entry hentry hkept)

theorem passOver_sound (hready : Ready goal kept pace c) (hcur : c.current = some row)
    (hkey : Key.ofBytes? row.key = some key) (hrow : goal.selection.entryOf? row = none)
    (misses : ℕ) : (passOver goal c key misses).Sound goal kept c := by
  obtain ⟨range, hrange, hstop⟩ := hready.stop
  have hmem : row ∈ c.ahead := by
    rw [Cursor.ahead_of_current hcur]
    exact List.mem_cons_self
  -- A leap from here spares the wanted entries ahead that are to be kept.
  have hspares : ∀ entry ∈ goal.selection.wanted c.ahead, kept entry.key →
      goal.selection.LeapSpares key entry.key := by
    intro entry hentry hkept
    obtain ⟨r, hr, hentry'⟩ := mem_wanted.1 hentry
    obtain ⟨-, hadm, -⟩ := entryOf?_eq_some_iff.1 hentry'
    exact hready.leaps row hmem key hkey entry.key hkept hadm
      (lt_of_mem_wanted hstop hcur hkey hrow hentry).1
  rw [passOver]
  split
  · exact stepOver_sound hready hcur hrow _
  · split
    · next e hleap => exact Cause.stuck hmem hcur hkey hleap (stuck_of_leapAfter hleap)
    · next target hleap =>
      refine leapTo_sound hready hcur hkey hrow (lt_of_leapAfter hleap) fun entry hentry hkept ↦ ?_
      exact (hspares entry hentry hkept).le_or_leadOf target hleap
    · next hleap =>
      exact Keeps.nil fun entry hentry hkept ↦ (hspares entry hentry hkept).ne_exhausted hleap
    · exact stepOver_sound hready hcur hrow _

/-- **One move of a search** passes over nothing wanted that is to be kept. -/
theorem move_sound (hready : Ready goal kept pace c) : (move goal pace c).Sound goal kept c := by
  rw [move]
  split
  · next hcur =>
    refine Keeps.nil fun entry hentry ↦ ?_
    rw [Cursor.ahead_of_current_eq_none hcur] at hentry
    cases hentry
  · next row hcur =>
    have hmem : row ∈ c.ahead := by rw [Cursor.ahead_of_current hcur]; simp
    split
    · next hkey => exact Cause.encoding hmem hcur hkey
    · next key hkey =>
      split
      · next hadm =>
        have hentry : goal.selection.entryOf? row = some ⟨key, row.value⟩ :=
          entryOf?_eq_some_iff.2 ⟨hkey, hadm, rfl⟩
        refine ⟨?_, .refl c⟩
        rw [Cursor.ahead_of_current hcur, List.tail_cons, wanted_cons_of_some hentry]
        exact .refl _
      · next hadm =>
        have hrow : goal.selection.entryOf? row = none := by
          simp only [entryOf?, hkey, hadm, if_false]
        split
        · next target =>
          split
          · next hlt => exact leapTo_sound hready hcur hkey hrow hlt (hready.spared target rfl)
          · exact passOver_sound hready hcur hkey hrow 0
        · next misses => exact passOver_sound hready hcur hkey hrow misses

end Moves

end Search

theorem search_of_stop {goal : Search.Goal} {pace : Search.Pace} {c c' : Cursor}
    {finding : Finding} (h : Search.move goal pace c = .stop finding c') :
    search goal pace c = (finding, c') := by
  rw [search]
  split
  · next hmove =>
    rw [h] at hmove
    cases hmove
    rfl
  · next hmove =>
    rw [h] at hmove
    cases hmove

theorem search_of_goOn {goal : Search.Goal} {pace pace' : Search.Pace} {c c' : Cursor}
    (h : Search.move goal pace c = .goOn pace' c') :
    search goal pace c = search goal pace' c' := by
  rw [search]
  split
  · next hmove =>
    rw [h] at hmove
    cases hmove
  · next hmove =>
    rw [h] at hmove
    cases hmove
    rfl

/-- **A search is right**, however many moves it takes. -/
theorem search_right {goal : Search.Goal} {kept : Key → Prop} {pace : Search.Pace} {c : Cursor}
    (hready : Search.Ready goal kept pace c) :
    Search.Right goal.selection kept c (search goal pace c) := by
  fun_induction search goal pace c with
  | case1 pace c finding c' hmove =>
    have hsound := Search.move_sound hready
    rwa [hmove] at hsound
  | case2 pace c pace' c' hmove ih =>
    have hsound := Search.move_sound hready
    rw [hmove] at hsound
    obtain ⟨hready', hon, hkeeps⟩ := hsound
    exact (ih hready').of_onward hon hkeeps

end CompositeScan
