import CompositeScan.Scan.Basic
import CompositeScan.Stream.Heap

/-!
# Merging streams

Streams of items that are each in the order of their keys become one such stream. The sources stand
in a heap. A source whose next item is not known yet comes first, so that every source has shown its
item before one is chosen; then the source with the least key comes first. An error goes before
whatever it is compared with, so it is passed on where it is met.

A merge ends because every turn uses up an item, a look at an item, or a source.

Where the comparison does not tell two items apart, how the heap moves its elements settles which of
them comes first. That is why the heap is spelled out (`Heap`) and not replaced by a sort.
-/

namespace CompositeScan

namespace Item

/-- The first item may be handed out before the second. -/
def precedes (a b : Item) : Bool :=
  match a, b with
  | .ok x, .ok y => x.key ≤ y.key
  | _, _ => true

end Item

/-- A stream that takes part in a merge. -/
structure Source where
  /-- The next item, once it was looked at. -/
  shown : Option Item
  /-- The items after it. -/
  rest : List Item

namespace Source

/-- Which of two sources comes first: the greater one. -/
def order (a b : Source) : Ordering :=
  match a.shown, b.shown with
  | none, none => .eq
  | none, some _ => .gt
  | some _, none => .lt
  | some x, some y => if x.precedes y then .gt else .lt

/-- The work that a source still gives to a merge. -/
def work (s : Source) : Nat := 1 + 2 * s.rest.length + s.shown.toList.length

/-- The work that sources together still give. -/
def totalWork (sources : List Source) : Nat := sources.foldr (fun s n ↦ s.work + n) 0

theorem totalWork_of_perm {sources sources' : List Source} (h : sources.Perm sources') :
    totalWork sources = totalWork sources' :=
  h.foldr_eq' (fun a _ b _ n ↦ Nat.add_left_comm b.work a.work n) 0

end Source

/-- The work that the sources of a merge still give. -/
def mergeWork (heap : Array Source) : Nat := Source.totalWork heap.toList

theorem mergeWork_of_perm {heap : Array Source} {sources : List Source}
    (h : heap.toList.Perm sources) : mergeWork heap = Source.totalWork sources :=
  Source.totalWork_of_perm h

/-- Merges the sources of a heap. -/
def mergeHeap (heap : Array Source) : List Item :=
  match _h : heap.toList with
  | [] => []
  | ⟨some item, rest⟩ :: _ => item :: mergeHeap (Heap.replaceTop Source.order heap ⟨none, rest⟩)
  | ⟨none, item :: rest⟩ :: _ => mergeHeap (Heap.replaceTop Source.order heap ⟨some item, rest⟩)
  | ⟨none, []⟩ :: _ => mergeHeap (Heap.pop Source.order heap)
termination_by mergeWork heap
decreasing_by
  all_goals
    first
    | rw [mergeWork_of_perm (Heap.replaceTop_perm (by assumption))]
    | rw [mergeWork_of_perm (Heap.pop_perm (by assumption))]
    simp only [mergeWork, *, Source.totalWork, List.foldr_cons, Source.work, Option.toList_none,
      Option.toList_some, List.length_nil, List.length_cons]
    omega

/-- Merges streams in the order of their keys. -/
def mergeStreams (streams : List (List Item)) : List Item :=
  mergeHeap (Heap.ofList Source.order (streams.map fun items ↦ ⟨none, items⟩))

end CompositeScan
