import CompositeScan.Proofs.Scan.Agreement
import CompositeScan.Proofs.Scan.Complete
import CompositeScan.Scan.Describe

/-!
# What a scan keeps of its past

With storage that never fails, the past of a scan shows in two things only: where the scan stands
and the error that waits to be handed out, if there is one. So two ways to go on from a scan with a
past can be compared with a scan that has none or another one.

A scan that is sent to a range does there what a new scan would do (`Scan.Descends.items_seek`), and
a fork does what the scan would have done that it was made from (`Scan.Descends.items_eq`). Both
times the storage cursors take different ways to the same row, and from there on the scans agree.

The error that waits is where both comparisons end. It stays with a scan that is sent elsewhere,
which hands it out before the first item from there, and a fork does not get it.
-/

namespace CompositeScan

namespace Cursor

variable {c : Cursor} {range : KeyRange} {key : Key} {value : Bytes}

theorem peers_fork (h : c.faults = .never) : c.Peers c.fork := ⟨rfl, h, h⟩

/-- To advance a cursor and to send a fork of it behind the key at which it stands leads both to the
same row. -/
theorem advance_agrees_fork (h : c.faults = .never) (hcur : c.current = some ⟨key.bytes, value⟩)
    (hstop : c.stop = range.upper.map Key.bytes) :
    c.advance.1 = none ∧ (c.fork.seek (range.dropThrough key)).1 = none ∧
      c.advance.2.Agrees (c.fork.seek (range.dropThrough key)).2 := by
  rw [advance_of_current h hcur, seek_of_never (c := c.fork) h]
  refine ⟨rfl, rfl, ⟨rfl, h, h⟩, hstop.symm, ?_⟩
  rw [hstop]
  rfl

end Cursor

namespace Sample

/-- The entry of a graded name. -/
def entry : Entry := ⟨.ofValues [['d'], ['y']], []⟩

/-- The range of its key alone. -/
def named : KeyRange := .point entry.key

/-- The entry, and behind it a row whose key is no text. -/
def spoiled : Store := ⟨[⟨entry.key.bytes, entry.value⟩, ⟨[0xFF], []⟩], by decide⟩

/-- A new scan of that store. -/
def spoiledScan : Scan := .fresh aboveLeast {} spoiled .never

/-- The scan when it was sent to a range and stands at the entry. -/
def atEntry (range : KeyRange) : Scan :=
  { spoiledScan with
    cursor := (spoiledScan.cursor.seek range).2
    range := some range
    position := .on entry false }

/-- The scan when it has gone on from there. -/
def pastEntry (range : KeyRange) : Scan :=
  { spoiledScan with
    cursor := (spoiledScan.cursor.seek range).2.advance.2
    range := some range
    position := .exhausted }

theorem start_spoiledScan : spoiledScan.start = (none, atEntry aboveLeast.range) :=
  Scan.resume_of_stop (s := { spoiledScan with range := some aboveLeast.range }) (.found entry) rfl

theorem seek_named_spoiledScan : spoiledScan.seek named = (none, atEntry named) :=
  Scan.resume_of_stop (s := { spoiledScan with range := some named }) (.found entry) rfl

theorem advance_atEntry : (atEntry aboveLeast.range).advance =
    (some (.invalidEncoding [0xFF]), pastEntry aboveLeast.range) :=
  Scan.resume_of_stop (s := atEntry aboveLeast.range) (.failed _) rfl

theorem advance_atEntry_named : (atEntry named).advance = (none, pastEntry named) :=
  Scan.resume_of_stop (s := atEntry named) .exhausted rfl

theorem run_next_spoiledScan : spoiledScan.run [.next] =
    { pastEntry aboveLeast.range with deferred := some (.invalidEncoding [0xFF]) } := by
  change spoiledScan.next.2 = _
  rw [Scan.next_of_start rfl rfl start_spoiledScan, Scan.yieldCurrent_of_on rfl, advance_atEntry]

theorem items_atEntry_named : (atEntry named).items = [.ok entry] := by
  rw [Scan.items_eq_walk Position.noConfusion rfl, Scan.walk_of_current rfl, advance_atEntry_named,
    Scan.walk_of_position_exhausted rfl]
  rfl

end Sample

namespace Scan

variable {s t first : Scan} {last : Option KeyRange} {range : KeyRange} {entry : Entry}
  {reseek : Bool} {calls : List Call} {selection : Selection} {config : Config} {store : Store}

/-! ## Items -/

theorem agrees_withDeferred (h : s.cursor.faults = .never) (e : Option Error) :
    s.Agrees { s with deferred := e } :=
  ⟨rfl, rfl, rfl, rfl, ⟨rfl, h, h⟩, rfl, rfl⟩

/-- A scan that was sought first hands out the error that waits. -/
theorem items_eq_append_walk (h : s.cursor.faults = .never) (hpos : s.position ≠ .unsought) :
    s.items = s.deferred.toList.map .error ++ s.walk := by
  rcases hdef : s.deferred with _ | e
  · exact items_eq_walk hpos hdef
  -- A walk does not look at the error, and without it iterating and walking are the same.
  · rw [items_of_next (next_of_deferred hdef), (agrees_withDeferred h none).walk_eq]
    exact congrArg _ (items_eq_walk hpos rfl)

theorem items_eq_of_next_eq (h : s.next = t.next) : s.items = t.items := by
  rcases hnext : t.next with ⟨_ | item, t'⟩
  · rw [items_of_next_eq_none hnext, items_of_next_eq_none (h.trans hnext)]
  · rw [items_of_next hnext, items_of_next (h.trans hnext)]

theorem items_of_unsought (hpos : s.position = .unsought) (hdef : s.deferred = none) :
    s.items = s.start.1.toList.map .error ++ s.start.2.walk := by
  have hdef' := (deferred_start s).trans hdef
  have hpos' : s.start.2.position ≠ .unsought := position_resume_ne_unsought _ _
  have hwalk := items_eq_walk hpos' hdef'
  rcases hstart : s.start with ⟨_ | e, sought⟩
  · rw [hstart] at hwalk hpos' hdef'
    have hnext : s.next = sought.next := by
      rw [next_of_start hpos hdef hstart, next_of_sought hpos' hdef']
    exact (items_eq_of_next_eq hnext).trans hwalk
  · rw [hstart] at hwalk
    rw [items_of_next (next_of_start_eq_some hpos hdef hstart), hwalk]
    rfl

theorem Descends.never (h : s.Descends first last) (hnever : first.cursor.faults = .never) :
    s.cursor.faults = .never :=
  h.sameStore.faults.trans hnever

theorem deferred_seek (s : Scan) (range : KeyRange) : (s.seek range).2.deferred = s.deferred :=
  deferred_resume { s with range := some range } _

/-! ## Scans that are sent elsewhere -/

theorem Descends.seek_agrees (h : s.Descends first last) (hnever : first.cursor.faults = .never)
    (range : KeyRange) :
    (first.seek range).1 = (s.seek range).1 ∧ (first.seek range).2.Agrees (s.seek range).2 :=
  Scan.seek_agrees h.selection_eq h.config_eq ⟨h.sameStore.store, hnever, h.never hnever⟩ range

theorem Descends.items_seek (h : s.Descends first last) (hnever : first.cursor.faults = .never)
    (hdef : first.deferred = none) (range : KeyRange) :
    (s.seek range).2.items = s.deferred.toList.map .error ++ (first.seek range).2.items := by
  obtain ⟨-, hagrees⟩ := h.seek_agrees hnever range
  rw [items_eq_append_walk hagrees.cursor.never_right (position_resume_ne_unsought _ _),
    items_eq_append_walk hagrees.cursor.never_left (position_resume_ne_unsought _ _),
    deferred_seek, deferred_seek, hdef, hagrees.walk_eq]
  rfl

/-- **To be sent to a range** puts an end to the past of a scan, but for an error that waits. -/
theorem seek_run_fresh (selection : Selection) (config : Config) (store : Store)
    (calls : List Call) (range : KeyRange) :
    (((fresh selection config store .never).run calls).seek range).1 =
      ((fresh selection config store .never).seek range).1 ∧
    (((fresh selection config store .never).run calls).seek range).2.position =
      ((fresh selection config store .never).seek range).2.position ∧
    (((fresh selection config store .never).run calls).seek range).2.current =
      ((fresh selection config store .never).seek range).2.current ∧
    (((fresh selection config store .never).run calls).seek range).2.items =
      ((fresh selection config store .never).run calls).deferred.toList.map .error ++
        ((fresh selection config store .never).seek range).2.items := by
  have hdescends := descends_run_fresh selection config store .never calls
  obtain ⟨hmet, hagrees⟩ := hdescends.seek_agrees rfl range
  exact ⟨hmet.symm, hagrees.position_eq, hagrees.current_eq, hdescends.items_seek rfl rfl range⟩

/-- A name behind which a key is spoiled: the error is met when the name is handed out. A scan that
is then sent to the range of the name alone gives the error again there, before the name, and a new
one does not. -/
theorem error_before_entry_of_seek :
    (((Sample.spoiledScan.run [.next]).seek Sample.named).1 = none ∧
    ((Sample.spoiledScan.run [.next]).seek Sample.named).2.items =
      [.error (.invalidEncoding [0xFF]), .ok Sample.entry]) ∧
    (Sample.spoiledScan.seek Sample.named).1 = none ∧
    (Sample.spoiledScan.seek Sample.named).2.items = [.ok Sample.entry] := by
  have hdescends : (Sample.spoiledScan.run [.next]).Descends Sample.spoiledScan _ :=
    descends_run_fresh _ _ _ _ _
  obtain ⟨hmet, -⟩ := hdescends.seek_agrees rfl Sample.named
  rw [hdescends.items_seek rfl rfl, ← hmet, Sample.seek_named_spoiledScan,
    Sample.items_atEntry_named, Sample.run_next_spoiledScan]
  exact ⟨⟨rfl, rfl⟩, rfl, rfl⟩

/-! ## Forks -/

theorem Descends.advance_fork (h : s.Descends first last) (hnever : first.cursor.faults = .never)
    (hpos : s.position = .on entry reseek) :
    s.advance.1 = s.fork.advance.1 ∧ s.advance.2.Agrees s.fork.advance.2 := by
  obtain ⟨range, hlast, -, hcursor⟩ := h.on hpos
  have hrange : s.range = some range := h.range_eq.trans hlast
  have hfork : s.fork.advance =
      s.fork.resume (s.cursor.fork.seek (range.dropThrough entry.key)) := by
    simp only [Scan.advance, Scan.fork, hpos, hrange]
  rw [hfork]
  -- The scan may be a fork that was not moved yet. Then both are sent to the same range.
  cases reseek with
  | false =>
    obtain ⟨hstop, hcur⟩ := hcursor rfl
    have hadvance : s.advance = s.resume s.cursor.advance := by simp only [Scan.advance, hpos]
    rw [hadvance]
    exact resume_agrees rfl rfl rfl (Cursor.advance_agrees_fork (h.never hnever) hcur hstop)
  | true =>
    have hadvance : s.advance = s.resume (s.cursor.seek (range.dropThrough entry.key)) := by
      simp only [Scan.advance, hpos, hrange]
    rw [hadvance]
    exact resume_agrees rfl rfl rfl ((Cursor.peers_fork (h.never hnever)).seek _)

theorem current_fork (s : Scan) : s.fork.current = s.current := by
  rcases hpos : s.position with _ | _ | _ <;> simp [current, fork, hpos]

theorem Descends.walk_fork (h : s.Descends first last) (hnever : first.cursor.faults = .never) :
    s.fork.walk = s.walk := by
  rcases hcur : s.current with _ | entry
  · rw [walk_of_current_eq_none hcur, walk_of_current_eq_none (s.current_fork.trans hcur)]
  · obtain ⟨reseek, hpos⟩ := position_of_current hcur
    obtain ⟨hmet, hagrees⟩ := h.advance_fork hnever hpos
    rw [walk_of_current hcur, walk_of_current (s.current_fork.trans hcur), hmet, hagrees.walk_eq]

/-- A fork gives what the scan gives that it was made from, less an error that waits. -/
theorem Descends.items_eq (h : s.Descends first last) (hnever : first.cursor.faults = .never) :
    s.items = s.deferred.toList.map .error ++ s.fork.items := by
  by_cases hpos : s.position = .unsought
  · obtain ⟨-, hdef, -⟩ := h.unsought hpos
    have hfork : s.fork.position = .unsought := by simp only [Scan.fork, hpos]
    obtain ⟨hmet, hagrees⟩ := Scan.seek_agrees (s := s) (t := s.fork) rfl rfl
      (Cursor.peers_fork (h.never hnever)) s.selection.range
    rw [items_of_unsought hpos hdef, items_of_unsought hfork rfl, hdef]
    simp only [start]
    rw [hmet, hagrees.walk_eq]
    rfl
  · have hfork : s.fork.position ≠ .unsought := fun h ↦ hpos (position_of_fork_eq_unsought h)
    rw [items_eq_append_walk (h.never hnever) hpos,
      items_eq_append_walk (s := s.fork) (h.never hnever) hfork, h.walk_fork hnever]
    rfl

theorem name_position_fork (s : Scan) : s.fork.position.name = s.position.name := by
  rcases hpos : s.position with _ | _ | _ <;> simp [fork, hpos, Position.name]

/-- **A fork goes on where the scan stands** that it was made from, if no error waits: it stands at
the same entry and gives the same items, errors included. -/
theorem items_fork_of_run
    (hdef : ((fresh selection config store .never).run calls).deferred = none) :
    ((fresh selection config store .never).run calls).fork.position.name =
      ((fresh selection config store .never).run calls).position.name ∧
    ((fresh selection config store .never).run calls).fork.current =
      ((fresh selection config store .never).run calls).current ∧
    ((fresh selection config store .never).run calls).fork.items =
      ((fresh selection config store .never).run calls).items := by
  have hdescends := descends_run_fresh selection config store .never calls
  refine ⟨name_position_fork _, current_fork _, ?_⟩
  rw [hdescends.items_eq rfl, hdef]
  rfl

/-- The error behind the entry was not met yet when the scan stands at the entry. -/
theorem items_fork_of_run_spoiled :
    (Sample.spoiledScan.run [.start]).deferred = none ∧
    (Sample.spoiledScan.run [.start]).current = some Sample.entry ∧
    (Sample.spoiledScan.run [.start]).fork.position.name =
      (Sample.spoiledScan.run [.start]).position.name ∧
    (Sample.spoiledScan.run [.start]).fork.current = (Sample.spoiledScan.run [.start]).current ∧
    (Sample.spoiledScan.run [.start]).fork.items = (Sample.spoiledScan.run [.start]).items := by
  have hcurrent : (Sample.spoiledScan.run [.start]).current = some Sample.entry := by
    change Sample.spoiledScan.start.2.current = _
    rw [Sample.start_spoiledScan]
    rfl
  have hdef : (Sample.spoiledScan.run [.start]).deferred = none := deferred_start _
  exact ⟨hdef, hcurrent, items_fork_of_run hdef⟩

/-- **A fork loses nothing but the error that waits**: it gives all entries that are still to come,
and every other error. -/
theorem fork_loses_only_deferred (selection : Selection) (config : Config) (store : Store)
    (calls : List Call) :
    entriesOf ((fresh selection config store .never).run calls).fork.items =
      entriesOf ((fresh selection config store .never).run calls).items ∧
    ∀ e, .error e ∈ ((fresh selection config store .never).run calls).items ↔
      ((fresh selection config store .never).run calls).deferred = some e ∨
        .error e ∈ ((fresh selection config store .never).run calls).fork.items := by
  have hitems := (descends_run_fresh selection config store .never calls).items_eq rfl
  refine ⟨?_, fun e ↦ ?_⟩
  · rw [hitems]
    simp [entriesOf, Except.toOption]
  · rw [hitems]
    simp

/-- The error that waits behind the entry that was handed out is still given by the scan, but a fork
ends without it. -/
theorem fork_loses_deferred_spoiled :
    .error (.invalidEncoding [0xFF]) ∈ (Sample.spoiledScan.run [.next]).items ∧
    (Sample.spoiledScan.run [.next]).fork.items = [] := by
  rw [Sample.run_next_spoiledScan]
  refine ⟨?_, ?_⟩
  · rw [items_of_next (next_of_deferred rfl)]
    exact List.mem_cons_self
  · exact items_of_next_eq_none (next_of_exhausted rfl rfl)

end Scan

end CompositeScan
