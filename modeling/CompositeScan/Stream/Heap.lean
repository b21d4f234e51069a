/-!
# Binary heaps

A binary heap in an array, the greatest element first, under a three-way comparison that need not
be a linear order. Where the comparison leaves a choice, the choice decides which of several equal
elements comes first, so the sifts are fixed to the last comparison: an element rises only above a
strictly lesser one, sinks only below a strictly greater one, and of two equal children the second
is the one looked at.

All a caller may assume without an order is that no element is lost or invented, which is what the
statements here say.
-/

namespace CompositeScan.Heap

variable {α : Type} (cmp : α → α → Ordering)

/-- Moves the element at `i` up while it is greater than its parent. -/
def siftUp {n : Nat} (v : Vector α n) (i : Nat) (hi : i < n) : Vector α n :=
  if h : i = 0 then v
  else
    let parent := (i - 1) / 2
    if cmp v[i] v[parent] = .gt then siftUp (v.swap i parent) parent (by omega) else v
termination_by i

/-- The greater of the two children of a position, the second if they compare equal. -/
def greaterChild {n : Nat} (v : Vector α n) (i : Nat) (h : 2 * i + 2 < n) : Nat :=
  if cmp v[2 * i + 1] v[2 * i + 2] = .gt then 2 * i + 1 else 2 * i + 2

theorem greaterChild_lt {n : Nat} (v : Vector α n) (i : Nat) (h : 2 * i + 2 < n) :
    greaterChild cmp v i h < n := by
  simp only [greaterChild]; split <;> omega

theorem lt_greaterChild {n : Nat} (v : Vector α n) (i : Nat) (h : 2 * i + 2 < n) :
    i < greaterChild cmp v i h := by
  simp only [greaterChild]; split <;> omega

/-- Moves the element at `i` down while it is less than its greater child. -/
def siftDown {n : Nat} (v : Vector α n) (i : Nat) (hi : i < n) : Vector α n :=
  if h₂ : 2 * i + 2 < n then
    let child := greaterChild cmp v i h₂
    have hchild : child < n := greaterChild_lt cmp v i h₂
    if cmp v[i] v[child] = .lt then siftDown (v.swap i child) child hchild else v
  else if h₁ : 2 * i + 1 < n then
    if cmp v[i] v[2 * i + 1] = .lt then v.swap i (2 * i + 1) else v
  else v
termination_by n - i
decreasing_by have := lt_greaterChild cmp v i h₂; omega

/-- Moves the element at `i` down to the last row, whatever it is, and from there up to its
place. -/
def sink {n : Nat} (v : Vector α n) (i : Nat) (hi : i < n) : Vector α n :=
  if h₂ : 2 * i + 2 < n then
    let child := greaterChild cmp v i h₂
    have hchild : child < n := greaterChild_lt cmp v i h₂
    sink (v.swap i child) child hchild
  else if h₁ : 2 * i + 1 < n then siftUp cmp (v.swap i (2 * i + 1)) (2 * i + 1) h₁
  else siftUp cmp v i hi
termination_by n - i
decreasing_by have := lt_greaterChild cmp v i h₂; omega

/-- Adds an element. -/
def push (heap : Array α) (x : α) : Array α :=
  (siftUp cmp (heap.push x).toVector heap.size (by simp)).toArray

/-- Puts `x` in the place of the first element. -/
def replaceTop (heap : Array α) (x : α) : Array α :=
  if h : 0 < heap.size then
    (siftDown cmp (heap.set 0 x).toVector 0 (by simpa using h)).toArray
  else heap

/-- Puts `x` in the place of the first element, expecting it to belong near the last row. -/
def refill (heap : Array α) (x : α) : Array α :=
  if h : 0 < heap.size then
    (sink cmp (heap.set 0 x).toVector 0 (by simpa using h)).toArray
  else heap

/-- Removes the first element; the last one takes its place. -/
def pop (heap : Array α) : Array α :=
  match heap.back? with
  | some last => refill cmp heap.pop last
  | none => heap

/-- The heap of elements added in turn. -/
def ofList (xs : List α) : Array α := xs.foldl (push cmp) #[]

/-! ## Nothing is lost -/

variable {cmp}

theorem siftUp_perm {n : Nat} (v : Vector α n) (i : Nat) (hi : i < n) :
    (siftUp cmp v i hi).Perm v := by
  fun_induction siftUp cmp v i hi with
  | case1 => exact .rfl
  | case2 v i hi h parent hgt ih => exact ih.trans (Vector.swap_perm hi _)
  | case3 => exact .rfl

theorem siftDown_perm {n : Nat} (v : Vector α n) (i : Nat) (hi : i < n) :
    (siftDown cmp v i hi).Perm v := by
  fun_induction siftDown cmp v i hi with
  | case1 v i hi h₂ child hchild hlt ih => exact ih.trans (Vector.swap_perm hi _)
  | case2 => exact .rfl
  | case3 v i hi h₂ h₁ hlt => exact Vector.swap_perm hi _
  | case4 => exact .rfl
  | case5 => exact .rfl

theorem sink_perm {n : Nat} (v : Vector α n) (i : Nat) (hi : i < n) :
    (sink cmp v i hi).Perm v := by
  fun_induction sink cmp v i hi with
  | case1 v i hi h₂ child hchild ih => exact ih.trans (Vector.swap_perm hi _)
  | case2 v i hi h₂ h₁ => exact (siftUp_perm ..).trans (Vector.swap_perm hi _)
  | case3 v i hi h₂ h₁ => exact siftUp_perm ..

theorem push_perm (heap : Array α) (x : α) :
    (push cmp heap x).toList.Perm (x :: heap.toList) := by
  refine (siftUp_perm (heap.push x).toVector heap.size (by simp)).toList.trans ?_
  simp

theorem replaceTop_perm {heap : Array α} {x top : α} {rest : List α}
    (h : heap.toList = top :: rest) : (replaceTop cmp heap x).toList.Perm (x :: rest) := by
  have hsize : 0 < heap.size := by simp [← Array.length_toList, h]
  rw [replaceTop, dif_pos hsize]
  refine (siftDown_perm (heap.set 0 x).toVector 0 (by simpa using hsize)).toList.trans ?_
  simp [h]

theorem refill_perm {heap : Array α} {x top : α} {rest : List α}
    (h : heap.toList = top :: rest) : (refill cmp heap x).toList.Perm (x :: rest) := by
  have hsize : 0 < heap.size := by simp [← Array.length_toList, h]
  rw [refill, dif_pos hsize]
  refine (sink_perm (heap.set 0 x).toVector 0 (by simpa using hsize)).toList.trans ?_
  simp [h]

theorem pop_perm {heap : Array α} {top : α} {rest : List α} (h : heap.toList = top :: rest) :
    (pop cmp heap).toList.Perm rest := by
  obtain ⟨l⟩ := heap
  subst h
  rcases List.eq_nil_or_concat rest with rfl | ⟨init, last, rfl⟩
  · simp [pop, refill]
  · have hback : (⟨top :: (init ++ [last])⟩ : Array α).back? = some last :=
      (List.back?_toArray _).trans
        (show ((top :: init) ++ [last]).getLast? = _ from List.getLast?_concat)
    have hpop : (⟨top :: (init ++ [last])⟩ : Array α).pop = ⟨top :: init⟩ :=
      (List.pop_toArray _).trans
        (congrArg List.toArray (show ((top :: init) ++ [last]).dropLast = _ from
          List.dropLast_concat))
    simp only [List.concat_eq_append, pop, hback, hpop]
    exact (refill_perm rfl).trans (List.perm_append_singleton last init).symm

end CompositeScan.Heap
