import CompositeScan.Proofs.Scan.Iterate

/-!
# A scan makes progress

A scan never does worse than to step through the rows of its range, whatever the step functions of
the fields answer. They decide where a leap goes, but not that it goes forward: the part of a target
that is sought lies after the key at which the storage stands, and where no such part is known the
scan steps. So every use of the storage drops at least one of the rows ahead of it.

## The account

The account is kept by `Cursor.cost`, the seeks and advances that were made. No operation of a
search raises the cost by more than it shortens the list of rows ahead (`Cursor.Forward`), and
iterating the scan keeps the sum of the two from growing (`Scan.Proceeds`). The one use that is not
paid for by a row is the seek with which a scan is sent to its range; that is the one in the bound
of `Scan.seek_progress`.

An attempt that fails is no use of the storage. It ends the search, and the rows ahead do not matter
any more, so the account holds whatever fails and when.

## What is not used

None of this relies on vocabularies. The entries handed out are admitted, since each was checked,
and ascend, since rows do; only that no entry is missing needs steps that can be trusted.
-/

namespace CompositeScan

namespace Cursor

variable {c c' c'' : Cursor} {range : KeyRange} {row : Row} {start : Key}

/-- How often the store was used. -/
def cost (c : Cursor) : ℕ := c.usage.seeks + c.usage.advances

/-- The second cursor came from the first by going on in the range last sought, at no more than the
price of one use for each row passed. -/
structure Forward (c c' : Cursor) : Prop extends c.SameStore c' where
  /-- The range ends where it did. -/
  stop : c'.stop = c.stop
  /-- Rows are passed, and none is added. -/
  sublist : c'.ahead.Sublist c.ahead
  /-- Every use passes a row. -/
  cost_le : c'.cost + c'.ahead.length ≤ c.cost + c.ahead.length

theorem Forward.refl (c : Cursor) : c.Forward c :=
  ⟨.refl c, rfl, List.Sublist.refl _, Nat.le_refl _⟩

theorem Forward.trans (h : c.Forward c') (h' : c'.Forward c'') : c.Forward c'' :=
  ⟨h.toSameStore.trans h'.toSameStore, h'.stop.trans h.stop, h'.sublist.trans h.sublist,
    Nat.le_trans h'.cost_le h.cost_le⟩

theorem cost_seek (h : c.seek range = (none, c')) : c'.cost = c.cost + 1 := by
  simp only [seek] at h
  split at h
  · cases h
  · cases h
    simp only [cost, Tally.countSeek]
    omega

theorem exists_attempts_of_seek {failure : Failure} (h : c.seek range = (some failure, c')) :
    ∃ attempts, c' = { c with attempts := attempts } := by
  simp only [seek] at h
  split at h
  · cases h
    exact ⟨_, rfl⟩
  · cases h

theorem exists_attempts_of_advance {failure : Failure} (h : c.advance = (some failure, c')) :
    ∃ attempts, c' = { c with attempts := attempts } := by
  simp only [advance] at h
  split at h
  · cases h
    exact ⟨_, rfl⟩
  · split at h <;> cases h

theorem forward_withAttempts (c : Cursor) (attempts : Tally) :
    c.Forward { c with attempts := attempts } :=
  ⟨⟨rfl, rfl⟩, rfl, List.Sublist.refl _, Nat.le_refl _⟩

theorem cost_advance (h : c.advance = (none, c')) :
    c'.cost + c.ahead.tail.length = c.cost + c.ahead.length := by
  simp only [advance] at h
  split at h
  · cases h
  · split at h
    · next hcur =>
      cases h
      rw [ahead_of_current_eq_none hcur]
      rfl
    · next row hcur =>
      cases h
      rw [ahead_of_current hcur, List.tail_cons, List.length_cons]
      simp only [cost, Tally.countAdvance]
      omega

theorem forward_advance (h : c.advance = (none, c')) : c.Forward c' := by
  obtain ⟨hsame, hstop, hahead⟩ := advance_eq_none h
  refine ⟨hsame, hstop, hahead ▸ List.tail_sublist _, ?_⟩
  rw [hahead, cost_advance h]

theorem forward_seek_dropBefore (h : c.seek (range.dropBefore start) = (none, c'))
    (hcur : c.current = some row) (hlt : row.key < start.bytes)
    (hstop : c.stop = range.upper.map Key.bytes) : c.Forward c' := by
  obtain ⟨hsame, hstop', -⟩ := seek_eq_none h
  have hahead := ahead_seek_dropBefore h hcur hlt hstop
  refine ⟨hsame, hstop'.trans hstop.symm, hahead ▸ List.filter_sublist, ?_⟩
  have hlen : c'.ahead.length < c.ahead.length := by
    rw [hahead, ahead_of_current hcur, List.filter_cons_of_neg (by simpa using hlt),
      List.length_cons]
    exact Nat.lt_succ_of_le (List.length_filter_le _ _)
  rw [cost_seek h]
  omega

end Cursor

namespace Search

variable {goal : Goal} {pace : Pace} {c c' : Cursor} {range : KeyRange} {row : Row} {key : Key}

/-! ## Searches end -/

/-- What a search comes to within a number of moves. -/
def outcomeIn? (goal : Goal) : ℕ → Pace → Cursor → Option (Finding × Cursor)
  | 0, _, _ => none
  | n + 1, pace, c =>
    match move goal pace c with
    | .stop finding c' => some (finding, c')
    | .goOn pace' c' => outcomeIn? goal n pace' c'

/-- **A search ends**: it takes no more moves than there are rows from where the cursor stands, and
one. -/
theorem outcomeIn?_eq_some {n : ℕ} (h : c.remaining < n) :
    outcomeIn? goal n pace c = some (search goal pace c) := by
  induction n generalizing pace c with
  | zero => exact absurd h (Nat.not_lt_zero _)
  | succ n ih =>
    rw [outcomeIn?, search]
    cases hmove : move goal pace c with
    | stop finding c' => rfl
    | goOn pace' c' =>
      exact ih (Nat.lt_of_lt_of_le (remaining_lt_of_move hmove) (Nat.le_of_lt_succ h))

/-! ## Searches go forward -/

/-- The cursor after a move. -/
def Move.cursor : Move → Cursor
  | .stop _ c => c
  | .goOn _ c => c

theorem stepOver_forward (c : Cursor) (pace : Pace) : c.Forward (stepOver c pace).cursor := by
  rw [stepOver]
  split
  · next hadv =>
    obtain ⟨attempts, rfl⟩ := Cursor.exists_attempts_of_advance hadv
    exact Cursor.forward_withAttempts c attempts
  · next hadv => exact Cursor.forward_advance hadv

/-- A leap goes forward, since it seeks a key after the one at which the cursor stands. -/
theorem leapTo_forward {target : Key} (hrange : goal.range = some range)
    (hstop : c.stop = range.upper.map Key.bytes) (hcur : c.current = some row)
    (hkey : Key.ofBytes? row.key = some key) (hlt : key < target) :
    c.Forward (leapTo goal c key target).cursor := by
  have hbefore : row.key < ((target.leadAfter? key).getD target).bytes := by
    rw [← Key.bytes_eq_of_ofBytes? hkey]
    exact Key.bytes_lt_bytes (lt_getD_leadAfter? hlt)
  simp only [leapTo, hrange]
  split
  · split
    · next hseek =>
      obtain ⟨attempts, rfl⟩ := Cursor.exists_attempts_of_seek hseek
      exact Cursor.forward_withAttempts c attempts
    · next hseek => exact Cursor.forward_seek_dropBefore hseek hcur hbefore hstop
  · exact .refl c

theorem passOver_forward (hrange : goal.range = some range)
    (hstop : c.stop = range.upper.map Key.bytes) (hcur : c.current = some row)
    (hkey : Key.ofBytes? row.key = some key) (misses : ℕ) :
    c.Forward (passOver goal c key misses).cursor := by
  rw [passOver]
  split
  · exact stepOver_forward c _
  · split
    · exact .refl c
    · next hleap => exact leapTo_forward hrange hstop hcur hkey (Selection.lt_of_leapAfter hleap)
    · exact .refl c
    · exact stepOver_forward c _

/-- **One move of a search** goes forward. -/
theorem move_forward (pace : Pace) (hrange : goal.range = some range)
    (hstop : c.stop = range.upper.map Key.bytes) : c.Forward (move goal pace c).cursor := by
  rw [move]
  split
  · exact .refl c
  · next row hcur =>
    split
    · exact .refl c
    · next key hkey =>
      split
      · exact .refl c
      · split
        · next target =>
          split
          · next hlt => exact leapTo_forward hrange hstop hcur hkey hlt
          · exact passOver_forward hrange hstop hcur hkey 0
        · next misses => exact passOver_forward hrange hstop hcur hkey misses

end Search

/-- **A search goes forward**, however many moves it takes. -/
theorem search_forward {goal : Search.Goal} {c : Cursor} {range : KeyRange} (pace : Search.Pace)
    (hrange : goal.range = some range) (hstop : c.stop = range.upper.map Key.bytes) :
    c.Forward (search goal pace c).2 := by
  fun_induction search goal pace c with
  | case1 pace c finding c' hmove =>
    have hforward := Search.move_forward pace hrange hstop
    rwa [hmove] at hforward
  | case2 pace c pace' c' hmove ih =>
    have hforward := Search.move_forward pace hrange hstop
    rw [hmove] at hforward
    exact hforward.trans (ih (hforward.stop.trans hstop))

theorem entryOf?_of_search_found {goal : Search.Goal} {pace : Search.Pace} {c c' : Cursor}
    {entry : Entry} (h : search goal pace c = (.found entry, c')) :
    ∃ row, c'.current = some row ∧ goal.selection.entryOf? row = some entry := by
  fun_induction search goal pace c with
  | case1 pace c finding c'' hmove =>
    cases h
    obtain ⟨rfl, hadmits, row, hcur, hkey, hvalue⟩ := Search.move_eq_found hmove
    exact ⟨row, hcur, Selection.entryOf?_eq_some_iff.2 ⟨hkey, hadmits, hvalue.symm⟩⟩
  | case2 pace c pace' c'' hmove ih => exact ih h

namespace Scan

variable {s s' : Scan} {range : KeyRange} {item? : Option Item}

/-! ## Iterations -/

/-- The rows from where the scan stands to the end of its range. -/
def rowsAhead (s : Scan) : List Row :=
  match s.position with
  | .exhausted => []
  | _ => s.cursor.ahead

theorem rowsAhead_of_on {entry : Entry} {reseek : Bool} (h : s.position = .on entry reseek) :
    s.rowsAhead = s.cursor.ahead := by
  rw [rowsAhead, h]

/-- The scan was sent to the range: it is over, or stands at the entry of the first row ahead. -/
inductive Sought (range : KeyRange) (s : Scan) : Prop where
  /-- It is over. -/
  | ended (h : s.position = .exhausted)
  /-- It stands at an entry. -/
  | on {entry : Entry} {row : Row} {rows : List Row} (hrange : s.range = some range)
    (hstop : s.cursor.stop = range.upper.map Key.bytes) (hpos : s.position = .on entry false)
    (hahead : s.cursor.ahead = row :: rows) (hentry : s.selection.entryOf? row = some entry)

theorem Sought.withDeferred (h : s.Sought range) (e : Option Error) :
    ({ s with deferred := e } : Scan).Sought range := by
  cases h with
  | ended h => exact .ended h
  | on hrange hstop hpos hahead hentry => exact .on hrange hstop hpos hahead hentry

/-- What an item costs: the entries still to come and the rows still to be used up account for what
was handed out and for the use made of the store. -/
structure Proceeds (range : KeyRange) (s : Scan) (item? : Option Item) (s' : Scan) : Prop where
  /-- The scan stands in the range. -/
  sought : s'.Sought range
  /-- The selection is the same. -/
  selection_eq : s'.selection = s.selection
  /-- What was handed out and what is still wanted was wanted before. -/
  sublist : ((item?.bind Except.toOption).toList ++ s'.selection.wanted s'.rowsAhead).Sublist
    (s.selection.wanted s.rowsAhead)
  /-- Every use of the store passed a row. -/
  cost_le : s'.cursor.cost + s'.rowsAhead.length ≤ s.cursor.cost + s.rowsAhead.length

/-- Wherever its storage cursor was moved in the range, a scan goes on to an entry or is over. -/
theorem resume_sought {c : Cursor} (hrange : s.range = some range)
    (hstop : c.stop = range.upper.map Key.bytes) :
    (s.resume (none, c)).2.Sought range ∧ (s.resume (none, c)).2.selection = s.selection ∧
      (s.resume (none, c)).2.rowsAhead.Sublist c.ahead ∧
      (s.resume (none, c)).2.cursor.cost + (s.resume (none, c)).2.rowsAhead.length ≤
        c.cost + c.ahead.length := by
  have hgoal : s.goal.range = some range := hrange
  have hforward := search_forward (.stepping 0) hgoal hstop
  simp only [resume]
  rcases hsearch : search s.goal (.stepping 0) c with ⟨finding, c'⟩
  rw [hsearch] at hforward
  have hcost : c'.cost ≤ c.cost + c.ahead.length :=
    Nat.le_trans (Nat.le_add_right _ _) hforward.cost_le
  cases finding with
  | found entry =>
    obtain ⟨row, hcur, hentry⟩ := entryOf?_of_search_found hsearch
    refine ⟨.on hrange (hforward.stop.trans hstop) rfl (Cursor.ahead_of_current hcur) hentry, rfl,
      hforward.sublist, hforward.cost_le⟩
  | exhausted => exact ⟨.ended rfl, rfl, List.nil_sublist _, hcost⟩
  | failed e => exact ⟨.ended rfl, rfl, List.nil_sublist _, hcost⟩

theorem yieldCurrent_proceeds {entry : Entry} {row : Row} {rows : List Row}
    (hrange : s.range = some range) (hstop : s.cursor.stop = range.upper.map Key.bytes)
    (hpos : s.position = .on entry false) (hahead : s.cursor.ahead = row :: rows)
    (hentry : s.selection.entryOf? row = some entry) :
    s.Proceeds range s.yieldCurrent.1 s.yieldCurrent.2 := by
  have hwanted : s.selection.wanted s.rowsAhead = entry :: s.selection.wanted rows := by
    rw [rowsAhead_of_on hpos, hahead, Selection.wanted_cons_of_some hentry]
  simp only [yieldCurrent, hpos, advance]
  rcases hmoved : s.cursor.advance with ⟨_ | failure, c⟩
  · have hforward := Cursor.forward_advance hmoved
    obtain ⟨-, -, hadvanced⟩ := Cursor.advance_eq_none hmoved
    obtain ⟨hsought, hselection, hsublist, hcost⟩ :=
      resume_sought (s := s) hrange (hforward.stop.trans hstop)
    rw [hadvanced, hahead, List.tail_cons] at hsublist
    refine ⟨hsought.withDeferred _, hselection, ?_, ?_⟩
    · rw [hwanted]
      refine List.Sublist.cons_cons entry ?_
      rw [← hselection]
      exact hsublist.filterMap _
    · rw [rowsAhead_of_on hpos]
      exact Nat.le_trans hcost hforward.cost_le
  · obtain ⟨attempts, rfl⟩ := Cursor.exists_attempts_of_advance hmoved
    refine ⟨.ended rfl, rfl, ?_, Nat.le_add_right _ _⟩
    rw [hwanted]
    exact (List.nil_sublist _).cons_cons entry

/-- **Handing out an item** costs no more than the rows it leaves behind. -/
theorem next_proceeds (h : s.Sought range) : s.Proceeds range s.next.1 s.next.2 := by
  rw [next]
  split
  · exact ⟨h.withDeferred none, rfl, List.Sublist.refl _, Nat.le_refl _⟩
  · cases h with
    | ended h =>
      simp only [h, yieldCurrent]
      exact ⟨.ended h, rfl, List.Sublist.refl _, Nat.le_refl _⟩
    | on hrange hstop hpos hahead hentry =>
      simp only [hpos]
      exact yieldCurrent_proceeds hrange hstop hpos hahead hentry

/-- The entries among items. -/
def entriesOf (items : List Item) : List Entry := items.filterMap Except.toOption

theorem drain_proceeds (h : s.Sought range) :
    (entriesOf s.drain.1).Sublist (s.selection.wanted s.rowsAhead) ∧
      s.drain.2.cursor.cost ≤ s.cursor.cost + s.rowsAhead.length := by
  fun_induction drain s with
  | case1 s s' hnext =>
    have hproceeds := next_proceeds h
    rw [hnext] at hproceeds
    exact ⟨List.nil_sublist _, Nat.le_trans (Nat.le_add_right _ _) hproceeds.cost_le⟩
  | case2 s item s' hnext ih =>
    have hproceeds := next_proceeds h
    rw [hnext] at hproceeds
    obtain ⟨hsublist, hcost⟩ := ih hproceeds.sought
    refine ⟨?_, Nat.le_trans hcost hproceeds.cost_le⟩
    refine List.Sublist.trans ?_ hproceeds.sublist
    cases item with
    | error e => exact hsublist
    | ok entry => exact hsublist.cons_cons entry

theorem seek_sought (s : Scan) (range : KeyRange) :
    (s.seek range).2.Sought range ∧ (s.seek range).2.selection = s.selection ∧
      ((s.seek range).2.rowsAhead).Sublist (s.cursor.store.rowsIn (range.map Key.bytes)) ∧
      (s.seek range).2.cursor.cost + (s.seek range).2.rowsAhead.length ≤
        s.cursor.cost + 1 + (s.cursor.store.rowsIn (range.map Key.bytes)).length := by
  simp only [seek]
  rcases hmoved : s.cursor.seek range with ⟨_ | failure, c⟩
  · obtain ⟨-, hstop, hahead⟩ := Cursor.seek_eq_none hmoved
    have hsought := resume_sought (s := { s with range := some range }) rfl hstop
    rwa [hahead, Cursor.cost_seek hmoved] at hsought
  · obtain ⟨attempts, rfl⟩ := Cursor.exists_attempts_of_seek hmoved
    refine ⟨.ended rfl, rfl, List.nil_sublist _, ?_⟩
    exact Nat.le_trans (Nat.le_succ _) (Nat.le_add_right _ _)

/-- **A scan makes progress**, whatever the step functions of the fields answer and however its
storage cursor fails. A search ends, after no more moves than there are rows from where the cursor
stands, and one. After a scan was sent to a range, the entries that iterating it gives ascend; each
is stored, in the range and admitted; and all in all the store was used no more than once, and once
for each row in the range. -/
theorem seek_progress (s : Scan) (range : KeyRange) :
    (∀ goal pace c, Search.outcomeIn? goal (c.remaining + 1) pace c = some (search goal pace c)) ∧
    ((entriesOf (s.seek range).2.items).Pairwise fun a b ↦ a.key < b.key) ∧
    (∀ entry ∈ entriesOf (s.seek range).2.items,
      ⟨entry.key.bytes, entry.value⟩ ∈ s.cursor.store.rows ∧ entry.key ∈ range ∧
        s.selection.Admits entry.key) ∧
    (s.seek range).2.drain.2.cursor.cost ≤
      s.cursor.cost + 1 + (s.cursor.store.rowsIn (range.map Key.bytes)).length := by
  obtain ⟨hsought, hselection, hsublist, hcost⟩ := seek_sought s range
  obtain ⟨hentries, hdrain⟩ := drain_proceeds hsought
  rw [hselection] at hentries
  replace hentries := hentries.trans (hsublist.filterMap _)
  rw [← Selection.wanted, Selection.wanted_rowsIn] at hentries
  refine ⟨?_, (Selection.pairwise_entriesIn _ _ _).sublist hentries, ?_, Nat.le_trans hdrain hcost⟩
  · intro goal pace c
    exact Search.outcomeIn?_eq_some (Nat.lt_succ_self _)
  · intro entry hentry
    obtain ⟨hrange, row, hrow, hrowentry⟩ := Selection.mem_entriesIn.1 (hentries.subset hentry)
    obtain ⟨hkey, hadmits, hvalue⟩ := Selection.entryOf?_eq_some_iff.1 hrowentry
    rw [Key.bytes_eq_of_ofBytes? hkey, hvalue]
    exact ⟨hrow, hrange, hadmits⟩

end Scan

end CompositeScan
