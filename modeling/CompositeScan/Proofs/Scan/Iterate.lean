import CompositeScan.Proofs.Scan.Search
import CompositeScan.Scan.Iterate

/-!
# A scan reports what a full check would find

The entries that a range of a store holds for a selection are settled by checking every row
(`Selection.entriesIn`). A scan that was sought reports just these, in the order of their keys,
unless it breaks off: then it reports some of the first ones and the error (`Reports`), which has
one of the causes of `Search.Cause`.

That holds where all stored keys conform (`Scan.reports_seek_new`). It follows from what holds in
any store where leaps spare certain keys: a scan reports all entries with these keys, and some of
the others (`Scan.exists_reports_seek_new`).

A scan can be read in two ways, by iterating it or by walking it: reading the entry at which it
stands and advancing (`Scan.walk`). The two see the same items (`Scan.items_eq_walk`), so that the
work is done for the walk, where nothing is ever deferred.

## One search, then the walk

What one search comes to is `Scan.Lands`: an entry, with the rows from it on ahead of the storage
cursor; the end of the range; or an error. Resuming, advancing and seeking all land in this sense,
each from the rows it had ahead, and the walk is the induction over landings (`Scan.walk_reports`).
The cause of an error is read off the storage cursor as the search left it. Nothing moves that
cursor after an error, so what is said of it at the end of the walk is said of the attempt that
failed, or of the row that could not be passed.
-/

namespace CompositeScan

open Search (Cause Conform Keeps LeapsSpare)

namespace Selection

variable {s : Selection} {range : KeyRange} {store : Store} {entry : Entry}

/-- The entries in a range of a store, found by checking every row. -/
def entriesIn (s : Selection) (range : KeyRange) (store : Store) : List Entry :=
  store.rows.filterMap fun row ↦
    match Key.ofBytes? row.key with
    | some key => if key ∈ range ∧ s.Admits key then some ⟨key, row.value⟩ else none
    | none => none

theorem wanted_rowsIn (s : Selection) (range : KeyRange) (store : Store) :
    s.wanted (store.rowsIn (range.map Key.bytes)) = s.entriesIn range store := by
  rw [wanted, Store.rowsIn, List.filterMap_filter]
  refine List.filterMap_congr fun row _ ↦ ?_
  simp only [entryOf?, decide_eq_true_eq]
  cases hkey : Key.ofBytes? row.key with
  | none => exact ite_self _
  | some key =>
    rw [← Key.bytes_eq_of_ofBytes? hkey]
    simp only [Interval.bytes_mem_map_iff]
    by_cases hrange : key ∈ range <;> simp [hrange]

theorem mem_entriesIn :
    entry ∈ s.entriesIn range store ↔
      entry.key ∈ range ∧ ∃ row ∈ store.rows, s.entryOf? row = some entry := by
  rw [← wanted_rowsIn, mem_wanted]
  constructor
  · rintro ⟨row, hrow, hentry⟩
    obtain ⟨hmem, hrange⟩ := Store.mem_rowsIn.1 hrow
    obtain ⟨hbytes, -, -⟩ := entryOf?_eq_some_iff.1 hentry
    rw [← Key.bytes_eq_of_ofBytes? hbytes, Interval.bytes_mem_map_iff] at hrange
    exact ⟨hrange, row, hmem, hentry⟩
  · rintro ⟨hrange, row, hmem, hentry⟩
    obtain ⟨hbytes, -, -⟩ := entryOf?_eq_some_iff.1 hentry
    refine ⟨row, Store.mem_rowsIn.2 ⟨hmem, ?_⟩, hentry⟩
    rw [← Key.bytes_eq_of_ofBytes? hbytes]
    exact Interval.bytes_mem_map_iff.2 hrange

theorem pairwise_entriesIn (s : Selection) (range : KeyRange) (store : Store) :
    (s.entriesIn range store).Pairwise fun a b ↦ a.key < b.key := by
  rw [← wanted_rowsIn]
  refine Store.pairwise_rowsIn.filterMap _ fun row row' hlt entry hentry entry' hentry' ↦ ?_
  obtain ⟨hkey, -, -⟩ := entryOf?_eq_some_iff.1 hentry
  obtain ⟨hkey', -, -⟩ := entryOf?_eq_some_iff.1 hentry'
  rw [← Key.bytes_eq_of_ofBytes? hkey, ← Key.bytes_eq_of_ofBytes? hkey'] at hlt
  exact Key.bytes_lt_bytes_iff.1 hlt

theorem nodup_entriesIn (s : Selection) (range : KeyRange) (store : Store) :
    (s.entriesIn range store).Nodup := by
  refine (s.pairwise_entriesIn range store).imp fun {a b} hlt heq ↦ ?_
  rw [heq] at hlt
  exact Std.lt_irrefl hlt

end Selection

/-- Items that report entries: all of them, or some of the first ones and then an error. -/
def Reports (entries : List Entry) (cause : Error → Prop) (items : List Item) : Prop :=
  items = entries.map .ok ∨
    ∃ found e, found <+: entries ∧ cause e ∧ items = found.map .ok ++ [.error e]

namespace Reports

variable {entries : List Entry} {cause cause' : Error → Prop} {items : List Item}

theorem cons (h : Reports entries cause items) (entry : Entry) :
    Reports (entry :: entries) cause (.ok entry :: items) := by
  rcases h with rfl | ⟨found, e, hfound, he, rfl⟩
  · exact .inl rfl
  · exact .inr ⟨entry :: found, e, (List.prefix_cons_inj entry).2 hfound, he, rfl⟩

theorem of_error {e : Error} (h : cause e) : Reports entries cause [.error e] :=
  .inr ⟨[], e, List.nil_prefix, h, rfl⟩

theorem mono (h : Reports entries cause items) (himp : ∀ e, cause e → cause' e) :
    Reports entries cause' items :=
  h.imp_right fun ⟨found, e, hfound, he, hitems⟩ ↦ ⟨found, e, hfound, himp e he, hitems⟩

theorem eq_of_forall_not {e : Option Error}
    (h : Reports entries cause (e.toList.map .error ++ items)) (hnone : ∀ e, ¬cause e) :
    e = none ∧ items = entries.map .ok := by
  have hitems := h.resolve_right fun ⟨_, e, _, he, _⟩ ↦ hnone e he
  cases e with
  | none => exact ⟨rfl, hitems⟩
  | some e => cases entries <;> simp at hitems

end Reports

namespace Scan

variable {kept : Key → Prop} {range : KeyRange} {s s' : Scan} {entry : Entry}

/-! ## Walking a scan -/

theorem position_of_current (h : s.current = some entry) :
    ∃ reseek, s.position = .on entry reseek := by
  rw [current] at h
  split at h
  · next reseek hpos =>
    cases h
    exact ⟨reseek, hpos⟩
  · cases h

theorem current_of_position {reseek : Bool} (h : s.position = .on entry reseek) :
    s.current = some entry := by
  rw [current, h]

/-- The items of a scan that is walked: the entry at which it stands, what advancing it meets, and
so on until it stands nowhere. -/
def walk (s : Scan) : List Item :=
  match _h : s.current with
  | some entry => .ok entry :: (s.advance.1.toList.map .error ++ s.advance.2.walk)
  | none => []
termination_by s.ahead
decreasing_by
  obtain ⟨reseek, hpos⟩ := position_of_current (by assumption)
  exact ahead_advance_lt hpos rfl

theorem walk_of_current_eq_none (h : s.current = none) : s.walk = [] := by
  rw [walk]
  split
  · next h' => simp [h] at h'
  · rfl

/-- The scan after it was walked. -/
def walkEnd (s : Scan) : Scan :=
  match _h : s.current with
  | some _ => s.advance.2.walkEnd
  | none => s
termination_by s.ahead
decreasing_by
  obtain ⟨reseek, hpos⟩ := position_of_current (by assumption)
  exact ahead_advance_lt hpos rfl

theorem walkEnd_of_current_eq_none (h : s.current = none) : s.walkEnd = s := by
  rw [walkEnd]
  split
  · next h' => simp [h] at h'
  · rfl

theorem walkEnd_of_current (h : s.current = some entry) : s.walkEnd = s.advance.2.walkEnd := by
  rw [walkEnd]
  split
  · rfl
  · next h' => simp [h] at h'

theorem current_of_exhausted (h : s.position = .exhausted) : s.current = none := by
  rw [current, h]

theorem walk_of_position_exhausted (h : s.position = .exhausted) : s.walk = [] :=
  walk_of_current_eq_none (current_of_exhausted h)

theorem walkEnd_of_position_exhausted (h : s.position = .exhausted) : s.walkEnd = s :=
  walkEnd_of_current_eq_none (current_of_exhausted h)

theorem drain_of_next {item : Item} (h : s.next = (some item, s')) :
    s.drain = (item :: s'.drain.1, s'.drain.2) := by
  rw [drain]
  split
  · next h' => simp [h] at h'
  · next item' s'' h' =>
    rw [h, Prod.mk.injEq, Option.some_inj] at h'
    obtain ⟨rfl, rfl⟩ := h'
    rfl

theorem drain_of_next_eq_none (h : s.next = (none, s')) : s.drain = ([], s') := by
  rw [drain]
  split
  · next s'' h' =>
    rw [h, Prod.mk.injEq] at h'
    rw [h'.2]
  · next h' => simp [h] at h'

theorem items_of_next {item : Item} (h : s.next = (some item, s')) :
    s.items = item :: s'.items := by
  rw [items, drain_of_next h]
  rfl

theorem items_of_next_eq_none (h : s.next = (none, s')) : s.items = [] := by
  rw [items, drain_of_next_eq_none h]

theorem deferred_advance (s : Scan) : s.advance.2.deferred = s.deferred := by
  rw [advance]
  split
  · rfl
  · split
    · exact deferred_resume s _
    · rfl
  · exact deferred_resume s _

theorem position_resume_ne_unsought (s : Scan) (moved : Option Failure × Cursor) :
    (s.resume moved).2.position ≠ .unsought := by
  obtain ⟨failure, c⟩ := moved
  intro h
  cases failure with
  | some failure => cases h
  | none =>
    simp only [resume] at h
    generalize search s.goal (.stepping 0) c = outcome at h
    obtain ⟨finding, c'⟩ := outcome
    cases finding <;> cases h

theorem position_advance_ne_unsought (h : s.position ≠ .unsought) :
    s.advance.2.position ≠ .unsought := by
  rw [advance]
  split
  · exact h
  · split
    · exact position_resume_ne_unsought s _
    · exact Position.noConfusion
  · exact position_resume_ne_unsought s _

/-- Once a scan was sought, iterating it and walking it see the same items and end alike. -/
theorem drain_eq_walk (hpos : s.position ≠ .unsought) (hdef : s.deferred = none) :
    s.drain = (s.walk, s.walkEnd) := by
  -- The iteration makes the move of the walk when it hands out the entry, and keeps its error.
  fun_induction walk s with
  | case1 s entry hcur ih =>
    have ih := ih (position_advance_ne_unsought hpos) ((deferred_advance s).trans hdef)
    obtain ⟨reseek, hon⟩ := position_of_current hcur
    have hnext : s.next = (some (.ok entry), { s.advance.2 with deferred := s.advance.1 }) := by
      simp only [next, hdef, hon, yieldCurrent]
    rw [drain_of_next hnext, walkEnd_of_current hcur]
    have hadv := (deferred_advance s).trans hdef
    generalize s.advance = adv at ih hadv ⊢
    obtain ⟨e, s'⟩ := adv
    have hsame : { s' with deferred := none } = s' := by
      rw [← hadv]
    cases e with
    | none =>
      simp only [hsame, ih]
      rfl
    | some e =>
      have hnext : ({ s' with deferred := some e } : Scan).next =
          (some (.error e), { s' with deferred := none }) := rfl
      simp only [drain_of_next hnext, hsame, ih]
      rfl
  | case2 s hcur =>
    have hnext : s.next = (none, s) := by
      cases hp : s.position with
      | unsought => exact absurd hp hpos
      | on entry reseek =>
        rw [current_of_position hp] at hcur
        cases hcur
      | exhausted => simp only [next, hdef, hp, yieldCurrent]
    rw [drain_of_next_eq_none hnext, walkEnd_of_current_eq_none hcur]

theorem items_eq_walk (hpos : s.position ≠ .unsought) (hdef : s.deferred = none) :
    s.items = s.walk := by
  rw [items, drain_eq_walk hpos hdef]

/-! ## Scans that stand at an entry -/

/-- The scan stands at the first of the wanted entries that lie ahead of its storage cursor. -/
structure StandsAt (kept : Key → Prop) (range : KeyRange) (entry : Entry) (s : Scan) : Prop where
  /-- The range was sought. -/
  range_eq : s.range = some range
  /-- The storage sees the range to its end. -/
  stop : s.cursor.stop = range.upper.map Key.bytes
  /-- Leaps from the rows ahead spare what is to be kept. -/
  leaps : LeapsSpare s.selection kept s.cursor.ahead
  /-- The scan stands where its storage cursor does. -/
  position : s.position = .on entry false

/-- Where a scan may have got to when it was to go on to the first entry of the rows. -/
inductive Lands (selection : Selection) (faults : FaultPlan) (kept : Key → Prop) (range : KeyRange)
    (rows : List Row) : Option Error × Scan → Prop where
  /-- It stands at the first, with only such rows ahead. -/
  | stands {entry : Entry} {s' : Scan} (h : StandsAt kept range entry s')
    (hselection : s'.selection = selection) (hfaults : s'.cursor.faults = faults)
    (hkeeps : Keeps kept (selection.wanted rows) (entry :: selection.wanted s'.cursor.ahead.tail))
    (hsub : s'.cursor.ahead ⊆ rows) : Lands selection faults kept range rows (none, s')
  /-- There is none. -/
  | exhausted {s' : Scan} (hkeeps : Keeps kept (selection.wanted rows) [])
    (h : s'.position = .exhausted) : Lands selection faults kept range rows (none, s')
  /-- It met an error and is over. -/
  | failed {e : Error} {s' : Scan} (he : Cause selection faults rows s'.cursor e)
    (h : s'.position = .exhausted) : Lands selection faults kept range rows (some e, s')

/-- A scan goes on rightly from wherever its storage cursor was moved. -/
theorem resume_lands {c : Cursor} (hrange : s.range = some range)
    (hstop : c.stop = range.upper.map Key.bytes) (hleaps : LeapsSpare s.selection kept c.ahead) :
    Lands s.selection c.faults kept range c.ahead (s.resume (none, c)) := by
  have hready : Search.Ready s.goal kept (.stepping 0) c :=
    ⟨⟨range, hrange, hstop⟩, hleaps, nofun⟩
  have hright := search_right hready
  simp only [resume]
  generalize search s.goal (.stepping 0) c = outcome at hright
  obtain ⟨finding, c'⟩ := outcome
  cases finding with
  | found entry =>
    obtain ⟨hkeeps, hon⟩ := hright
    exact .stands ⟨hrange, hon.stop.trans hstop, hleaps.mono hon.ahead, rfl⟩ rfl hon.faults hkeeps
      hon.ahead
  | exhausted => exact .exhausted hright rfl
  | failed e => exact .failed hright rfl

theorem advance_lands (h : s.StandsAt kept range entry) :
    Lands s.selection s.cursor.faults kept range s.cursor.ahead.tail s.advance := by
  simp only [advance, h.position]
  cases hmoved : s.cursor.advance with
  | mk failure c =>
    cases failure with
    | some failure =>
      obtain ⟨n, hlast, hn⟩ := Cursor.faults_of_advance hmoved
      exact .failed (.advance hlast hn) rfl
    | none =>
      obtain ⟨hsame, hstop, hahead⟩ := Cursor.advance_eq_none hmoved
      have hsub : c.ahead ⊆ s.cursor.ahead := hahead ▸ (List.tail_sublist _).subset
      rw [← hsame.faults, ← hahead]
      exact resume_lands h.range_eq (hstop.trans h.stop) (h.leaps.mono hsub)

theorem seek_lands (hleaps : LeapsSpare s.selection kept s.cursor.store.rows) :
    Lands s.selection s.cursor.faults kept range (s.cursor.store.rowsIn (range.map Key.bytes))
      (s.seek range) := by
  simp only [seek]
  cases hmoved : s.cursor.seek range with
  | mk failure c =>
    cases failure with
    | some failure =>
      obtain ⟨n, hlast, hn⟩ := Cursor.faults_of_seek hmoved
      exact .failed (.seek hlast hn) rfl
    | none =>
      obtain ⟨hsame, hstop, hahead⟩ := Cursor.seek_eq_none hmoved
      rw [← hsame.faults, ← hahead]
      have hsub : c.ahead ⊆ s.cursor.store.rows := hahead ▸ List.filter_sublist.subset
      exact resume_lands (s := { s with range := some range }) rfl hstop (hleaps.mono hsub)

variable {V : Vocabularies} {selection : Selection} {faults : FaultPlan} {rows : List Row}
  {outcome : Option Error × Scan}

/-- Where a scan landed, it reports what is wanted of the rows, if it does so from an entry. -/
theorem Lands.reports (h : Lands selection faults kept range rows outcome)
    (hstands : ∀ {entry}, StandsAt kept range entry outcome.2 →
      ∃ found, Keeps kept (entry :: outcome.2.selection.wanted outcome.2.cursor.ahead.tail) found ∧
        Reports found (Cause outcome.2.selection outcome.2.cursor.faults outcome.2.cursor.ahead
          outcome.2.walkEnd.cursor) outcome.2.walk) :
    ∃ found, Keeps kept (selection.wanted rows) found ∧
      Reports found (Cause selection faults rows outcome.2.walkEnd.cursor)
        (outcome.1.toList.map .error ++ outcome.2.walk) := by
  cases h with
  | stands h hselection hfaults hkeeps hsub =>
    obtain ⟨found, hfound, hreports⟩ := hstands h
    rw [hselection] at hfound
    rw [hselection, hfaults] at hreports
    exact ⟨found, hkeeps.trans hfound, hreports.mono fun e he ↦ he.mono hsub⟩
  | exhausted hkeeps h =>
    rw [walk_of_position_exhausted h]
    exact ⟨[], hkeeps, .inl rfl⟩
  | failed he h =>
    rw [walk_of_position_exhausted h, walkEnd_of_position_exhausted h]
    exact ⟨_, .refl _, .of_error he⟩

/-- **A walk reports what is wanted** of the rows ahead and to be kept. -/
theorem walk_reports (h : s.StandsAt kept range entry) :
    ∃ found, Keeps kept (entry :: s.selection.wanted s.cursor.ahead.tail) found ∧
      Reports found (Cause s.selection s.cursor.faults s.cursor.ahead s.walkEnd.cursor) s.walk := by
  fun_induction walk s generalizing entry with
  | case1 s entry' hcur ih =>
    rw [current_of_position h.position, Option.some_inj] at hcur
    subst hcur
    rw [walkEnd_of_current (current_of_position h.position)]
    obtain ⟨found, hkeeps, hreports⟩ := (advance_lands h).reports ih
    have hsub : s.cursor.ahead.tail ⊆ s.cursor.ahead := (List.tail_sublist _).subset
    exact ⟨entry :: found, hkeeps.cons entry, (hreports.mono fun e he ↦ he.mono hsub).cons entry⟩
  | case2 s hcur =>
    rw [current_of_position h.position] at hcur
    cases hcur

/-! ## New scans -/

variable {config : Config} {c : Cursor}

/-- A new scan that is sent to a range reports the entries in the range that are to be kept, and
may be some others. -/
theorem exists_reports_seek_new (hleaps : LeapsSpare selection kept c.store.rows)
    (houtcome : (new selection config c).seek range = outcome) :
    (∃ found, Keeps kept (selection.entriesIn range c.store) found ∧
      Reports found (Cause selection c.faults (c.store.rowsIn (range.map Key.bytes))
        outcome.2.drain.2.cursor) (outcome.1.toList.map .error ++ outcome.2.items)) ∧
      outcome.2.walk = outcome.2.items := by
  subst houtcome
  have hdrain : ((new selection config c).seek range).2.drain = (_, _) :=
    drain_eq_walk (position_resume_ne_unsought _ _) (deferred_resume _ _)
  have hlands : Lands selection c.faults kept range (c.store.rowsIn (range.map Key.bytes))
      ((new selection config c).seek range) := seek_lands (s := new selection config c) hleaps
  rw [← Selection.wanted_rowsIn, items, hdrain]
  exact ⟨hlands.reports walk_reports, rfl⟩

/-- A new scan that is sent to a range reports the entries in the range. -/
theorem reports_seek_new (hlaw : selection.LawfulColumns V)
    (hstore : Conform V selection.fields c.store.rows)
    (houtcome : (new selection config c).seek range = outcome) :
    Reports (selection.entriesIn range c.store)
      (Cause selection c.faults (c.store.rowsIn (range.map Key.bytes)) outcome.2.drain.2.cursor)
      (outcome.1.toList.map .error ++ outcome.2.items) ∧ outcome.2.walk = outcome.2.items := by
  obtain ⟨⟨found, hkeeps, hreports⟩, hwalk⟩ :=
    exists_reports_seek_new (hstore.leapsSpare hlaw) houtcome
  have hall : ∀ entry ∈ selection.entriesIn range c.store,
      entry.key.Conforms V selection.fields := by
    intro entry hentry
    obtain ⟨-, row, hrow, hrowentry⟩ := Selection.mem_entriesIn.1 hentry
    exact hstore row hrow entry.key (Selection.entryOf?_eq_some_iff.1 hrowentry).1
  rw [hkeeps.eq_of_forall (Selection.nodup_entriesIn selection range c.store) hall] at hreports
  exact ⟨hreports, hwalk⟩

theorem seek_new_eq_none {c : Cursor} (hlaw : selection.LawfulColumns V)
    (hstore : Conform V selection.fields c.store.rows)
    (hcause : ∀ c' e, ¬Cause selection c.faults c.store.rows c' e) (config : Config)
    (range : KeyRange) :
    ∃ sought, (new selection config c).seek range = (none, sought) ∧
      sought.items = (selection.entriesIn range c.store).map .ok := by
  obtain ⟨hreports, -⟩ := reports_seek_new hlaw hstore rfl
  obtain ⟨hnone, hitems⟩ := hreports.eq_of_forall_not fun e he ↦
    hcause _ e (he.mono List.filter_sublist.subset)
  exact ⟨_, Prod.ext hnone rfl, hitems⟩

end Scan

end CompositeScan
