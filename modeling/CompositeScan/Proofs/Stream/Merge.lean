import CompositeScan.Proofs.Stream.Heap
import CompositeScan.Proofs.Text.Order
import CompositeScan.Stream.Merge
import Mathlib.Data.List.Nodup
import Mathlib.Data.List.Perm.Basic
import Mathlib.Order.WithBot

/-!
# A merge hands out the items of its streams in order

What a merge is supposed to do does not depend on heaps: it hands out, again and again, the head of
a stream that goes before the heads of all the others (`Merged`). Nothing is lost and nothing is
invented on the way (`Merged.perm`), and what is handed out is in the order of the keys if each
stream was (`Merged.pairwise`).

That the heap does this is a matter of ranks. A source ranks by the key of the item it has shown,
and lowest of all before it has shown one. So when the first source of the heap shows an item, all
sources do, and its item goes before theirs (`mergeStreams_merged`).
-/

namespace CompositeScan

namespace Item

variable {a b c : Item}

/-- The item is an entry and no error. -/
def IsEntry (a : Item) : Prop := ∃ entry, a = .ok entry

theorem precedes_ok_iff {x y : Entry} : precedes (.ok x) (.ok y) ↔ x.key ≤ y.key := by
  rw [precedes, decide_eq_true_iff]

theorem precedes_trans (hb : b.IsEntry) (hab : a.precedes b) (hbc : b.precedes c) :
    a.precedes c := by
  obtain ⟨y, rfl⟩ := hb
  rcases a with _ | x
  · rfl
  rcases c with _ | z
  · rfl
  rw [precedes_ok_iff] at hab hbc ⊢
  exact hab.trans hbc

/-- The items of a stream are entries in the order of their keys. -/
structure Ascending (items : List Item) : Prop where
  /-- None of them is an error. -/
  isEntry : ∀ item ∈ items, item.IsEntry
  /-- An item goes before those that follow it. -/
  pairwise : items.Pairwise fun a b ↦ a.precedes b

theorem Ascending.of_cons {item : Item} {items : List Item} (h : Ascending (item :: items)) :
    Ascending items :=
  ⟨(List.forall_mem_cons.1 h.isEntry).2, h.pairwise.of_cons⟩

theorem ascending_map_ok {entries : List Entry} :
    Ascending (entries.map .ok) ↔ entries.Pairwise fun a b ↦ a.key ≤ b.key := by
  constructor
  · intro h
    exact (List.pairwise_map.1 h.pairwise).imp fun hab ↦ precedes_ok_iff.1 hab
  · intro h
    refine ⟨fun item hitem ↦ ?_, List.pairwise_map.2 (h.imp fun hab ↦ precedes_ok_iff.2 hab)⟩
    obtain ⟨entry, -, rfl⟩ := List.mem_map.1 hitem
    exact ⟨entry, rfl⟩

end Item

/-! ## What a merge is -/

/-- A merge hands out, as long as there is one, the head of a stream that goes before the heads of
all the others. -/
inductive Merged : List (List Item) → List Item → Prop where
  | done {streams : List (List Item)} : (∀ items ∈ streams, items = []) → Merged streams []
  | emit {streams others : List (List Item)} {item : Item} {rest items : List Item} :
    streams.Perm ((item :: rest) :: others) →
    (∀ head tail, head :: tail ∈ others → item.precedes head) →
    Merged (rest :: others) items → Merged streams (item :: items)

namespace Merged

variable {streams streams' : List (List Item)} {items : List Item}

theorem of_perm (hperm : streams.Perm streams') (h : Merged streams' items) :
    Merged streams items := by
  cases h with
  | done hnil => exact .done fun items hitems ↦ hnil items (hperm.mem_iff.1 hitems)
  | emit hstreams hle h => exact .emit (hperm.trans hstreams) hle h

theorem cons_nil (h : Merged streams items) : Merged ([] :: streams) items := by
  induction h with
  | done hnil => exact .done (List.forall_mem_cons.2 ⟨rfl, hnil⟩)
  | @emit streams others item rest items hstreams hle _ ih =>
    refine .emit ((hstreams.cons []).trans (.swap _ _ _)) (fun head tail hmem ↦ ?_)
      (ih.of_perm (.swap _ _ _))
    exact hle head tail (List.mem_of_ne_of_mem (List.cons_ne_nil _ _) hmem)

theorem perm (h : Merged streams items) : items.Perm streams.flatten := by
  induction h with
  | done hnil => rw [List.flatten_eq_nil_iff.2 hnil]
  | emit hstreams _ _ ih => exact (ih.cons _).trans hstreams.flatten.symm

/-- **Merge order.** What is merged from streams in order is in order. -/
theorem pairwise (h : Merged streams items) (hstreams : ∀ items ∈ streams, Item.Ascending items) :
    items.Pairwise fun a b ↦ a.precedes b := by
  induction h with
  | done => exact .nil
  | @emit streams others item rest items hperm hle h ih =>
    obtain ⟨hhead, hothers⟩ := List.forall_mem_cons.1 fun items hitems ↦
      hstreams items (hperm.mem_iff.2 hitems)
    refine List.pairwise_cons.2 ⟨fun next hnext ↦ ?_,
      ih (List.forall_mem_cons.2 ⟨hhead.of_cons, hothers⟩)⟩
    rcases List.mem_append.1 (h.perm.mem_iff.1 hnext) with hrest | hnext
    · exact List.rel_of_pairwise_cons hhead.pairwise hrest
    · obtain ⟨other, hother, hmem⟩ := List.mem_flatten.1 hnext
      obtain ⟨head, tail, rfl⟩ := List.exists_cons_of_ne_nil (List.ne_nil_of_mem hmem)
      have hitem := hle head tail hother
      have hasc := hothers _ hother
      rcases List.mem_cons.1 hmem with rfl | hmem
      · exact hitem
      · exact Item.precedes_trans (hasc.isEntry head List.mem_cons_self) hitem
          (List.rel_of_pairwise_cons hasc.pairwise hmem)

/-- Entries of different keys can be merged in one way only. -/
theorem eq_map_ok {parts : List (List Entry)} {entries : List Entry}
    (h : Merged (parts.map (·.map .ok)) items) (hflat : parts.flatten = entries)
    (hentries : entries.Pairwise fun a b ↦ a.key < b.key) : items = entries.map .ok := by
  have hparts : ∀ items ∈ parts.map (·.map .ok), Item.Ascending items := by
    intro items hitems
    obtain ⟨part, hpart, rfl⟩ := List.mem_map.1 hitems
    refine Item.ascending_map_ok.2 ?_
    have hsub : part.Sublist entries := hflat ▸ List.sublist_flatten_of_mem hpart
    exact (hentries.sublist hsub).imp le_of_lt
  have hperm : items.Perm (entries.map .ok) := by
    refine h.perm.trans (.of_eq ?_)
    rw [← hflat, List.map_flatten]
  have hasc := Item.ascending_map_ok.2 (hentries.imp le_of_lt)
  -- Two permutations in order are equal where no two items go before each other.
  refine hperm.eq_of_pairwise (fun a b ha hb hab hba ↦ ?_) (h.pairwise hparts) hasc.pairwise
  obtain ⟨x, hx, rfl⟩ := List.mem_map.1 (hperm.mem_iff.1 ha)
  obtain ⟨y, hy, rfl⟩ := List.mem_map.1 hb
  rw [Item.precedes_ok_iff] at hab hba
  have hnodup : (entries.map (·.key)).Nodup := List.pairwise_map.2 (hentries.imp ne_of_lt)
  rw [List.inj_on_of_nodup_map hnodup hx hy (le_antisymm hab hba)]

end Merged

/-! ## The heap merges -/

namespace Source

/-- The items that the source still gives. -/
def items (s : Source) : List Item := s.shown.toList ++ s.rest

/-- A source ranks by the key of the item it shows, and lowest if it shows none. -/
def rank (s : Source) : WithBot Key :=
  match s.shown with
  | some (.ok entry) => entry.key
  | _ => ⊥

theorem ranks_order : Heap.Ranks order (fun s ↦ Item.Ascending s.items) rank := by
  have hshown : ∀ s : Source, Item.Ascending s.items →
      s.shown = none ∨ ∃ entry, s.shown = some (.ok entry) := by
    rintro ⟨_ | item, rest⟩ h
    · exact .inl rfl
    · obtain ⟨entry, rfl⟩ := h.isEntry item List.mem_cons_self
      exact .inr ⟨entry, rfl⟩
  constructor
  all_goals
    intro a b ha hb
    rcases hshown a ha with ha | ⟨x, ha⟩ <;> rcases hshown b hb with hb | ⟨y, hb⟩
    · simp [order, rank, ha, hb]
    · simp [order, rank, ha, hb]
    · simp [order, rank, ha, hb]
    · rcases em (x.key ≤ y.key) with hle | hnle
      · simp [order, rank, ha, hb, Item.precedes_ok_iff, hle]
      · simp [order, rank, ha, hb, Item.precedes_ok_iff, hnle, le_of_not_ge hnle]

variable {s : Source}

/-- If a source that shows an item is lowest, the others show theirs, and it goes before them. -/
theorem precedes_of_rank_le {item head : Item} {rest tail : List Item}
    (hs : Item.Ascending s.items) (hle : rank ⟨some item, rest⟩ ≤ s.rank)
    (hitem : item.IsEntry) (hitems : s.items = head :: tail) : item.precedes head := by
  obtain ⟨entry, rfl⟩ := hitem
  obtain ⟨_ | shown, rest'⟩ := s
  · exact absurd hle (WithBot.not_coe_le_bot entry.key)
  · obtain ⟨rfl, rfl⟩ := List.cons.inj hitems
    obtain ⟨other, rfl⟩ := hs.isEntry shown List.mem_cons_self
    exact Item.precedes_ok_iff.2 (WithBot.coe_le_coe.1 hle)

end Source

open Source

variable {heap : Array Source} {sources : List Source}

theorem forall_mem_of_perm {p : Source → Prop} (hperm : heap.toList.Perm sources)
    (h : ∀ s ∈ sources, p s) : ∀ s ∈ heap, p s :=
  fun s hs ↦ h s (hperm.mem_iff.1 (Array.mem_toList_iff.2 hs))

theorem mergeHeap_merged (hheap : Heap.IsHeap rank heap)
    (hasc : ∀ s ∈ heap, Item.Ascending s.items) :
    Merged (heap.toList.map items) (mergeHeap heap) := by
  fun_induction mergeHeap heap with
  | case1 heap htop =>
    rw [htop]
    exact .done (List.forall_mem_nil _)
  | case2 heap item rest others htop ih =>
    have hperm : (Heap.replaceTop order heap ⟨none, rest⟩).toList.Perm (⟨none, rest⟩ :: others) :=
      Heap.replaceTop_perm htop
    obtain ⟨hhead, hothers⟩ := List.forall_mem_cons.1 fun s hs ↦
      hasc s (Array.mem_toList_iff.1 (htop ▸ hs))
    have hrest : Item.Ascending (items ⟨none, rest⟩) := hhead.of_cons
    have hmerged := ih (Heap.replaceTop_isHeap ranks_order hasc hrest hheap)
      (forall_mem_of_perm hperm (List.forall_mem_cons.2 ⟨hrest, hothers⟩))
    rw [htop]
    -- The first source shows its item, so no source ranks as one that has shown none.
    refine .emit .rfl (fun head tail hmem ↦ ?_) (hmerged.of_perm (hperm.map items).symm)
    obtain ⟨s, hs, hitems⟩ := List.mem_map.1 hmem
    have hle := hheap.le_of_mem htop (Array.mem_toList_iff.1 (htop ▸ List.mem_cons_of_mem _ hs))
    exact precedes_of_rank_le (hothers s hs) hle (hhead.isEntry item List.mem_cons_self) hitems
  | case3 heap item rest others htop ih =>
    have hperm : (Heap.replaceTop order heap ⟨some item, rest⟩).toList.Perm
        (⟨some item, rest⟩ :: others) := Heap.replaceTop_perm htop
    obtain ⟨hhead, hothers⟩ := List.forall_mem_cons.1 fun s hs ↦
      hasc s (Array.mem_toList_iff.1 (htop ▸ hs))
    have hshown : Item.Ascending (items ⟨some item, rest⟩) := hhead
    have hmerged := ih (Heap.replaceTop_isHeap ranks_order hasc hshown hheap)
      (forall_mem_of_perm hperm (List.forall_mem_cons.2 ⟨hshown, hothers⟩))
    rw [htop]
    exact hmerged.of_perm (hperm.map items).symm
  | case4 heap others htop ih =>
    have hperm : (Heap.pop order heap).toList.Perm others := Heap.pop_perm htop
    have hothers := fun s hs ↦ hasc s (Array.mem_toList_iff.1 (htop ▸ List.mem_cons_of_mem _ hs))
    have hmerged := ih (Heap.pop_isHeap ranks_order hasc hheap) (forall_mem_of_perm hperm hothers)
    rw [htop]
    exact (hmerged.of_perm (hperm.map items).symm).cons_nil

/-- **Merging streams.** Streams of entries in the order of their keys are merged. -/
theorem mergeStreams_merged {streams : List (List Item)}
    (h : ∀ items ∈ streams, Item.Ascending items) : Merged streams (mergeStreams streams) := by
  have hperm := Heap.ofList_perm order (streams.map fun items ↦ ⟨none, items⟩)
  have hasc : ∀ s ∈ streams.map fun items ↦ (⟨none, items⟩ : Source), Item.Ascending s.items :=
    List.forall_mem_map.2 h
  have hmerged := mergeHeap_merged (Heap.ofList_isHeap ranks_order hasc)
    (forall_mem_of_perm hperm hasc)
  refine hmerged.of_perm ((hperm.map items).trans (.of_eq ?_)).symm
  rw [List.map_map]
  exact List.map_id streams

end CompositeScan
