import CompositeScan.Stream.Heap
import Mathlib

/-!
# Heaps are ordered

A comparison *ranks* elements if the greater of two is the one of lesser rank (`Heap.Ranks`). A heap
is ordered if no element has a lesser rank than its parent, so that the first one has the least rank
of all (`Heap.Ordered.top_le`).

The sifts work on a vector that is ordered except at one position (`Heap.OrderedOff`): pairs of
parent and child that do not touch the position are in order, and so are its children with its
parent, as if the element there were taken out. To swap the position with its greater child, or with
its parent, moves the exception there. What is known of the element itself decides which sift brings
it to rest: `siftUp` if its children are in order with it, `siftDown` if its parent is, and `sink`
if nothing is known.
-/

namespace CompositeScan.Heap

variable {α ρ : Type} [LinearOrder ρ] {cmp : α → α → Ordering} {P : α → Prop} {rank : α → ρ}

/-- On the elements of a kind, the comparison goes by rank, the least rank being the greatest. -/
structure Ranks (cmp : α → α → Ordering) (P : α → Prop) (rank : α → ρ) : Prop where
  /-- A greater element has no greater rank. -/
  of_gt : ∀ {a b}, P a → P b → cmp a b = .gt → rank a ≤ rank b
  /-- Nor has the other one if the first is not greater. -/
  of_ne_gt : ∀ {a b}, P a → P b → cmp a b ≠ .gt → rank b ≤ rank a
  /-- A lesser element has no lesser rank. -/
  of_lt : ∀ {a b}, P a → P b → cmp a b = .lt → rank b ≤ rank a
  /-- Nor has the other one if the first is not lesser. -/
  of_ne_lt : ∀ {a b}, P a → P b → cmp a b ≠ .lt → rank a ≤ rank b

/-- No element has a lesser rank than its parent. -/
def Ordered (rank : α → ρ) {n : ℕ} (v : Vector α n) : Prop :=
  ∀ j (hj : j < n) (hp : (j - 1) / 2 < n), 0 < j → rank v[(j - 1) / 2] ≤ rank v[j]

/-- The vector is ordered as if the element at `i` were taken out. -/
structure OrderedOff (rank : α → ρ) {n : ℕ} (v : Vector α n) (i : ℕ) : Prop where
  /-- Pairs that do not touch the position are in order. -/
  off : ∀ j (hj : j < n) (hp : (j - 1) / 2 < n), 0 < j → j ≠ i → (j - 1) / 2 ≠ i →
    rank v[(j - 1) / 2] ≤ rank v[j]
  /-- The children of the position are in order with its parent. -/
  across : ∀ j (hj : j < n) (hi : 0 < i) (hj0 : 0 < j) (hp : (j - 1) / 2 = i),
    rank v[(i - 1) / 2] ≤ rank v[j]

variable {n i : ℕ} {v : Vector α n}

theorem OrderedOff.ordered (h : OrderedOff rank v i)
    (hparent : ∀ (hi : i < n) (hp : (i - 1) / 2 < n), 0 < i → rank v[(i - 1) / 2] ≤ rank v[i])
    (hchild : ∀ j (hj : j < n) (hj0 : 0 < j) (hp : (j - 1) / 2 = i),
      rank v[i] ≤ rank v[j]) :
    Ordered rank v := by
  intro j hj hp hpos
  by_cases hji : j = i
  · subst hji
    exact hparent hj hp hpos
  · by_cases hpi : (j - 1) / 2 = i
    · subst hpi
      exact hchild j hj hpos rfl
    · exact h.off j hj hp hpos hji hpi

/-- To swap the position with its parent, which comes after it, moves the exception there. -/
theorem OrderedOff.swap_parent (h : OrderedOff rank v i) (hi : i < n) (hpos : 0 < i)
    (hle : rank v[i] ≤ rank v[(i - 1) / 2]) :
    OrderedOff rank (v.swap i ((i - 1) / 2)) ((i - 1) / 2) := by
  have hoff := h.off
  have hacross := h.across
  constructor
  -- A pair off the parent has either none of the two positions in it, or `i` as its parent.
  · intro j hj hp hj0 hne hpi
    simp only [Vector.getElem_swap]
    grind
  · intro j hj hp0 hj0 hp
    simp only [Vector.getElem_swap]
    grind

/-- To swap the position with its greater child moves the exception there. -/
theorem OrderedOff.swap_child (h : OrderedOff rank v i) {c : ℕ} (hc : c < n) (hc0 : 0 < c)
    (hp : (c - 1) / 2 = i)
    (hleast : ∀ j (hj : j < n), 0 < j → (j - 1) / 2 = i → rank v[c] ≤ rank v[j]) :
    OrderedOff rank (v.swap i c) c := by
  have hoff := h.off
  have hacross := h.across
  constructor
  -- Off the child, what changed is the pair that ends at `i` and the one of its other child.
  · intro j hj hpn hj0 hne hpj
    simp only [Vector.getElem_swap]
    grind
  · intro j hj _ hj0 hpj
    simp only [Vector.getElem_swap]
    grind

theorem OrderedOff.swap_only_child (h : OrderedOff rank v i) (h₁ : 2 * i + 1 < n)
    (h₂ : ¬2 * i + 2 < n) : OrderedOff rank (v.swap i (2 * i + 1)) (2 * i + 1) := by
  refine h.swap_child h₁ (by omega) (by omega) fun j hj hj0 hp ↦ ?_
  obtain rfl : j = 2 * i + 1 := by omega
  exact le_rfl

/-! ## The sifts -/

theorem forall_mem_swap {j : ℕ} {hi : i < n} {hj : j < n} (h : ∀ x ∈ v, P x) :
    ∀ x ∈ v.swap i j, P x := fun x hx ↦ h x ((Vector.swap_perm hi hj).mem_iff.1 hx)

/-- An element whose children are in order with it rises to its place. -/
theorem siftUp_ordered (hcmp : Ranks cmp P rank) (hi : i < n) (hP : ∀ x ∈ v, P x)
    (h : OrderedOff rank v i)
    (hchild : ∀ j (hj : j < n), 0 < j → (j - 1) / 2 = i → rank v[i] ≤ rank v[j]) :
    Ordered rank (siftUp cmp v i hi) := by
  fun_induction siftUp cmp v i hi with
  | case1 v hi => exact h.ordered (fun _ _ hpos ↦ absurd hpos (Nat.lt_irrefl 0)) hchild
  | case2 v i hi hne parent hgt ih =>
    have hle := hcmp.of_gt (hP _ (Vector.getElem_mem hi)) (hP _ (Vector.getElem_mem _)) hgt
    have hpos : 0 < i := Nat.pos_of_ne_zero hne
    refine ih (forall_mem_swap hP) (h.swap_parent hi hpos hle) fun j hj hj0 hp ↦ ?_
    have hoff := h.off
    simp only [Vector.getElem_swap]
    grind
  | case3 v i hi hne parent hgt =>
    have hle := hcmp.of_ne_gt (hP _ (Vector.getElem_mem hi)) (hP _ (Vector.getElem_mem _)) hgt
    exact h.ordered (fun _ _ _ ↦ hle) hchild

theorem greaterChild_eq (cmp : α → α → Ordering) (v : Vector α n) (h₂ : 2 * i + 2 < n) :
    greaterChild cmp v i h₂ = 2 * i + 1 ∨ greaterChild cmp v i h₂ = 2 * i + 2 := by
  rw [greaterChild]
  split
  · exact .inl rfl
  · exact .inr rfl

theorem greaterChild_le (hcmp : Ranks cmp P rank) (hP : ∀ x ∈ v, P x) (h₂ : 2 * i + 2 < n)
    (hc : greaterChild cmp v i h₂ < n) :
    ∀ j (hj : j < n), 0 < j → (j - 1) / 2 = i → rank v[greaterChild cmp v i h₂] ≤ rank v[j] := by
  intro j hj hj0 hp
  have hleft : P v[2 * i + 1] := hP _ (Vector.getElem_mem _)
  have hright : P v[2 * i + 2] := hP _ (Vector.getElem_mem _)
  obtain rfl | rfl : j = 2 * i + 1 ∨ j = 2 * i + 2 := by omega
  all_goals
    simp only [greaterChild]
    split
  · exact le_rfl
  · next hgt => exact hcmp.of_ne_gt hleft hright hgt
  · next hgt => exact hcmp.of_gt hleft hright hgt
  · exact le_rfl

/-- An element whose parent is in order with it goes down to its place. -/
theorem siftDown_ordered (hcmp : Ranks cmp P rank) (hi : i < n) (hP : ∀ x ∈ v, P x)
    (h : OrderedOff rank v i)
    (hparent : ∀ hp : (i - 1) / 2 < n, 0 < i → rank v[(i - 1) / 2] ≤ rank v[i]) :
    Ordered rank (siftDown cmp v i hi) := by
  fun_induction siftDown cmp v i hi with
  -- Two children: the element goes below the greater of them, or stays above both.
  | case1 v i hi h₂ child hchild hlt ih =>
    have hle := hcmp.of_lt (hP _ (Vector.getElem_mem hi)) (hP _ (Vector.getElem_mem hchild)) hlt
    have hleast := greaterChild_le hcmp hP h₂ hchild
    have hc := greaterChild_eq cmp v h₂
    refine ih (forall_mem_swap hP) (h.swap_child hchild (by omega) (by omega) hleast)
      fun _ _ ↦ ?_
    simp only [Vector.getElem_swap]
    grind
  | case2 v i hi h₂ child hchild hlt =>
    have hle := hcmp.of_ne_lt (hP _ (Vector.getElem_mem hi)) (hP _ (Vector.getElem_mem hchild)) hlt
    have hleast := greaterChild_le hcmp hP h₂ hchild
    exact h.ordered (fun _ ↦ hparent) fun j hj hj0 hp ↦ hle.trans (hleast j hj hj0 hp)
  -- A single child is the last element of the heap, so there is nothing below it.
  | case3 v i hi h₂ h₁ hlt =>
    have hle := hcmp.of_lt (hP _ (Vector.getElem_mem hi)) (hP _ (Vector.getElem_mem h₁)) hlt
    refine (h.swap_only_child h₁ h₂).ordered (fun _ _ _ ↦ ?_) fun j hj hj0 hp ↦ absurd hj (by omega)
    simp only [Vector.getElem_swap]
    grind
  | case4 v i hi h₂ h₁ hlt =>
    have hle := hcmp.of_ne_lt (hP _ (Vector.getElem_mem hi)) (hP _ (Vector.getElem_mem h₁)) hlt
    refine h.ordered (fun _ ↦ hparent) fun j hj hj0 hp ↦ ?_
    obtain rfl : j = 2 * i + 1 := by omega
    exact hle
  | case5 v i hi h₂ h₁ =>
    exact h.ordered (fun _ ↦ hparent) fun j hj hj0 hp ↦ absurd hj (by omega)

/-- Whatever the element, it comes to its place by way of the last row. -/
theorem sink_ordered (hcmp : Ranks cmp P rank) (hi : i < n) (hP : ∀ x ∈ v, P x)
    (h : OrderedOff rank v i) : Ordered rank (sink cmp v i hi) := by
  fun_induction sink cmp v i hi with
  | case1 v i hi h₂ child hchild ih =>
    have hleast := greaterChild_le hcmp hP h₂ hchild
    have hc := greaterChild_eq cmp v h₂
    exact ih (forall_mem_swap hP) (h.swap_child hchild (by omega) (by omega) hleast)
  | case2 v i hi h₂ h₁ =>
    exact siftUp_ordered hcmp h₁ (forall_mem_swap hP) (h.swap_only_child h₁ h₂)
      fun j hj hj0 hp ↦ absurd hj (by omega)
  | case3 v i hi h₂ h₁ =>
    exact siftUp_ordered hcmp hi hP h fun j hj hj0 hp ↦ absurd hj (by omega)

/-! ## The operations -/

section Operations

variable {heap : Array α} {x : α}

/-- The elements of a heap are ordered. -/
def IsHeap (rank : α → ρ) (heap : Array α) : Prop := Ordered rank heap.toVector

theorem Ordered.isHeap (h : Ordered rank v) : IsHeap rank v.toArray := by
  obtain ⟨heap, rfl⟩ := v
  exact h

theorem IsHeap.top_le (h : IsHeap rank heap) (hpos : 0 < heap.size) (hi : i < heap.size) :
    rank heap[0] ≤ rank heap[i] := by
  induction i using Nat.strongRecOn with
  | _ i ih =>
    rcases Nat.eq_zero_or_pos i with rfl | hi0
    · exact le_rfl
    · have hp : (i - 1) / 2 < i := by omega
      have hpn : (i - 1) / 2 < heap.size := Nat.lt_trans hp hi
      exact (ih _ hp hpn).trans (h i hi hpn hi0)

theorem IsHeap.le_of_mem {top : α} {rest : List α} (h : IsHeap rank heap)
    (hheap : heap.toList = top :: rest) (hx : x ∈ heap) : rank top ≤ rank x := by
  obtain ⟨i, hi, rfl⟩ := Array.mem_iff_getElem.1 hx
  have hpos : 0 < heap.size := Nat.zero_lt_of_lt hi
  have htop : heap[0] = top := by
    simp only [← Array.getElem_toList, hheap, List.getElem_cons_zero]
  exact htop ▸ h.top_le hpos hi

theorem push_isHeap (hcmp : Ranks cmp P rank) (hP : ∀ y ∈ heap, P y) (hx : P x)
    (h : IsHeap rank heap) : IsHeap rank (push cmp heap x) := by
  have hall : ∀ y ∈ (heap.push x).toVector, P y := by
    simpa [or_imp, forall_and] using ⟨hP, hx⟩
  refine (siftUp_ordered hcmp _ hall ⟨fun j hj hpn hj0 hne hp ↦ ?_, fun j hj _ hj0 hp ↦ ?_⟩
    fun j hj hj0 hp ↦ ?_).isHeap
  · have hlt : j < heap.size := by
      rw [Array.size_push] at hj
      omega
    have hplt : (j - 1) / 2 < heap.size := by omega
    have hle := h j hlt hplt hj0
    simpa [Array.getElem_push, hlt, hplt] using hle
  all_goals
    rw [Array.size_push] at hj
    omega

/-- A heap is ordered as if its first element were taken out whatever is put in its place. -/
theorem IsHeap.orderedOff_set_zero (h : IsHeap rank heap) (hpos : 0 < heap.size) :
    OrderedOff rank (heap.set 0 x).toVector 0 := by
  refine ⟨fun j hj hpn hj0 hne hp ↦ ?_, fun j hj hi hj0 hp ↦ absurd hi (Nat.lt_irrefl 0)⟩
  have hle := h j (by simpa using hj) (by simpa using hpn) hj0
  simpa [Array.getElem_set, Ne.symm hne, Ne.symm hp] using hle

theorem forall_mem_set_zero (hP : ∀ y ∈ heap, P y) (hx : P x) (hpos : 0 < heap.size) :
    ∀ y ∈ (heap.set 0 x).toVector, P y := by
  intro y hy
  rcases Array.mem_or_eq_of_mem_set (by simpa using hy) with hy | rfl
  · exact hP y hy
  · exact hx

theorem replaceTop_isHeap (hcmp : Ranks cmp P rank) (hP : ∀ y ∈ heap, P y) (hx : P x)
    (h : IsHeap rank heap) : IsHeap rank (replaceTop cmp heap x) := by
  rw [replaceTop]
  split
  · next hpos =>
    refine (siftDown_ordered hcmp _ (forall_mem_set_zero hP hx hpos)
      (h.orderedOff_set_zero hpos) fun _ hi ↦ absurd hi (Nat.lt_irrefl 0)).isHeap
  · exact h

theorem refill_isHeap (hcmp : Ranks cmp P rank) (hP : ∀ y ∈ heap, P y) (hx : P x)
    (h : IsHeap rank heap) : IsHeap rank (refill cmp heap x) := by
  rw [refill]
  split
  · next hpos =>
    exact (sink_ordered hcmp _ (forall_mem_set_zero hP hx hpos)
      (h.orderedOff_set_zero hpos)).isHeap
  · exact h

theorem pop_isHeap (hcmp : Ranks cmp P rank) (hP : ∀ y ∈ heap, P y) (h : IsHeap rank heap) :
    IsHeap rank (pop cmp heap) := by
  rw [pop]
  split
  · next last hlast =>
    -- Without its last element a heap is a heap, and the place of the first one is free.
    have hmem : ∀ y ∈ heap.pop, y ∈ heap := fun y hy ↦ by
      rw [← Array.mem_toList_iff, Array.toList_pop] at hy
      exact Array.mem_toList_iff.1 (List.dropLast_subset _ hy)
    refine refill_isHeap hcmp (fun y hy ↦ hP y (hmem y hy))
      (hP last (Array.mem_of_back? hlast)) fun j hj hp hj0 ↦ ?_
    have hle := h j (by grind) (by grind) hj0
    simpa using hle
  · exact h

theorem foldl_push_perm (cmp : α → α → Ordering) (xs : List α) (heap : Array α) :
    (xs.foldl (push cmp) heap).toList.Perm (heap.toList ++ xs) := by
  induction xs generalizing heap with
  | nil => exact .of_eq (List.append_nil _).symm
  | cons x xs ih =>
    refine (ih _).trans (((push_perm heap x).append_right xs).trans ?_)
    exact List.perm_middle.symm

theorem ofList_perm (cmp : α → α → Ordering) (xs : List α) :
    (ofList cmp xs).toList.Perm xs := foldl_push_perm cmp xs #[]

theorem foldl_push_isHeap (hcmp : Ranks cmp P rank) {xs : List α}
    (hP : ∀ y ∈ heap.toList ++ xs, P y) (h : IsHeap rank heap) :
    IsHeap rank (xs.foldl (push cmp) heap) := by
  induction xs generalizing heap with
  | nil => exact h
  | cons x xs ih =>
    have hx : P x := hP x (List.mem_append_right _ List.mem_cons_self)
    have hheap : ∀ y ∈ heap, P y := fun y hy ↦
      hP y (List.mem_append_left _ (Array.mem_toList_iff.2 hy))
    refine ih (fun y hy ↦ hP y ?_) (push_isHeap hcmp hheap hx h)
    exact (((push_perm heap x).append_right xs).trans List.perm_middle.symm).mem_iff.1 hy

theorem ofList_isHeap (hcmp : Ranks cmp P rank) {xs : List α} (hP : ∀ y ∈ xs, P y) :
    IsHeap rank (ofList cmp xs) :=
  foldl_push_isHeap hcmp hP fun j hj ↦ absurd hj (Nat.not_lt_zero j)

end Operations

end CompositeScan.Heap
