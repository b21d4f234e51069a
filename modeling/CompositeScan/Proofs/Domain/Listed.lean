import CompositeScan.Domain.Listed
import CompositeScan.Proofs.Vocabulary
import Mathlib.Data.List.Basic
import Mathlib.Data.List.TakeWhile

/-!
# Listed domains in text order

The items of a list step to the item that follows and to the one before. If the list is in text
order and its items are as long as one another and free of separators, they make up a vocabulary in
which every step is the one asked for (`Vocabulary.isNext_listed`, `Vocabulary.isPrevious_listed`).

A text that is not listed is refused, which is the right answer, since it is no value. Of a listed
one the list is split at its first occurrence. What stands before it is less and what stands behind
it is greater, and of these the nearest is the neighbour. A list in order has no item twice, so the
first occurrence is the only one.

The module ends with a small attribute of such fields, on which the general statements about
selections and scans are tried.
-/

namespace CompositeScan

namespace Domain

variable {v : Text} {before after : List Text}

theorem dropWhile_append_cons (h : v ∉ before) :
    (before ++ v :: after).dropWhile (· ≠ v) = v :: after := by
  rw [List.dropWhile_append_of_pos fun u hu ↦ decide_eq_true (ne_of_mem_of_not_mem hu h),
    List.dropWhile_cons_of_neg (by simp)]

theorem takeWhile_append_cons (h : v ∉ before) :
    (before ++ v :: after).takeWhile (· ≠ v) = before := by
  rw [List.takeWhile_append_of_pos fun u hu ↦ decide_eq_true (ne_of_mem_of_not_mem hu h),
    List.takeWhile_cons_of_neg (by simp), List.append_nil]

theorem itemAfter_of_not_mem {items : List Text} (h : v ∉ items) :
    itemAfter items v = .error (.outsideDomain v "table") := by
  have hnil : items.dropWhile (· ≠ v) = [] :=
    List.dropWhile_eq_nil_iff.2 fun u hu ↦ decide_eq_true (ne_of_mem_of_not_mem hu h)
  rw [itemAfter, hnil]

theorem itemBefore_of_not_mem {items : List Text} (h : v ∉ items) :
    itemBefore items v = .error (.outsideDomain v "table") := by
  rw [itemBefore, if_neg h]

end Domain

namespace Vocabulary

variable {items : List Text} {width : ℕ}

/-- The items of a list, if they are values of one length. -/
def listed (items : List Text) (width : ℕ) (h : ∀ v ∈ items, v.length = width ∧ v.Plain) :
    Vocabulary where
  width := width
  values := {v | v ∈ items}
  length_eq hv := (h _ hv).1
  plain hv := (h _ hv).2

variable {h : ∀ v ∈ items, v.length = width ∧ v.Plain}

/-- In a list in text order, every value is stepped up to the next one. -/
theorem isNext_listed (hsorted : items.Pairwise (· < ·)) (v : Text) :
    (listed items width h).IsNext v ((Domain.listed items).successor v) := by
  rw [Domain.listed]
  by_cases hv : v ∈ items
  · obtain ⟨before, after, rfl, hnot⟩ := List.eq_append_cons_of_mem hv
    obtain ⟨-, hafter, hbefore⟩ := List.pairwise_append.1 hsorted
    have hle : ∀ u ∈ before ++ v :: after, v < u → u ∈ after := by
      intro u hu hlt
      rcases List.mem_append.1 hu with hu | hu
      · exact absurd (hbefore u hu v List.mem_cons_self) (lt_asymm hlt)
      · exact List.mem_of_ne_of_mem (ne_of_gt hlt) hu
    simp only [Domain.itemAfter, Domain.dropWhile_append_cons hnot]
    cases after with
    | nil => exact fun u hu hlt ↦ nomatch hle u hu hlt
    | cons next after =>
      obtain ⟨hv, hnext⟩ := List.pairwise_cons.1 hafter
      refine ⟨⟨?_, hv next List.mem_cons_self⟩, fun u hu ↦ ?_⟩
      · exact List.mem_append_right _ (List.mem_cons_of_mem _ List.mem_cons_self)
      · rcases List.mem_cons.1 (hle u hu.1 hu.2) with rfl | hmem
        · exact le_rfl
        · exact le_of_lt (List.rel_of_pairwise_cons hnext hmem)
  · simp only [Domain.itemAfter_of_not_mem hv]
    exact hv

theorem isPrevious_listed (hsorted : items.Pairwise (· < ·)) (v : Text) :
    (listed items width h).IsPrevious v ((Domain.listed items).predecessor v) := by
  rw [Domain.listed]
  by_cases hv : v ∈ items
  · obtain ⟨before, after, rfl, hnot⟩ := List.eq_append_cons_of_mem hv
    obtain ⟨hbefore, hafter, hlt⟩ := List.pairwise_append.1 hsorted
    have hmem : ∀ u ∈ before ++ v :: after, u < v → u ∈ before := by
      intro u hu huv
      rcases List.mem_append.1 hu with hu | hu
      · exact hu
      · rcases List.mem_cons.1 hu with rfl | hu
        · exact absurd huv (lt_irrefl _)
        · exact absurd (List.rel_of_pairwise_cons hafter hu) (lt_asymm huv)
    simp only [Domain.itemBefore, if_pos hv, Domain.takeWhile_append_cons hnot]
    rcases List.eq_nil_or_concat' before with rfl | ⟨before, previous, rfl⟩
    · exact fun u hu huv ↦ nomatch hmem u hu huv
    · rw [List.getLast?_concat]
      refine ⟨⟨?_, hlt previous (by simp) v List.mem_cons_self⟩, fun u hu ↦ ?_⟩
      · exact List.mem_append_left _ (by simp)
      · rcases List.mem_append.1 (hmem u hu.1 hu.2) with hu | hu
        · exact le_of_lt ((List.pairwise_append.1 hbefore).2.2 u hu previous (by simp))
        · exact le_of_eq (List.mem_singleton.1 hu)
  · simp only [Domain.itemBefore_of_not_mem hv]
    exact hv

end Vocabulary

/-! ## A small attribute -/

namespace Sample

/-- Grades in text order. -/
def grades : List Text := [['a'], ['b'], ['d']]

/-- A field whose values are grades. -/
def grade (name : String) : Field := .fixedIn name (.listed grades)

/-- The fields of a graded name. -/
def fields : List Field := [grade "grade", .varying "name"]

/-- Every fixed-length field has the grades for its vocabulary. -/
def vocabularies : Vocabularies := fun _ ↦ .listed grades 1 (by decide)

instance (name : String) : DecidablePred (· ∈ vocabularies name) :=
  fun v ↦ inferInstanceAs (Decidable (v ∈ grades))

theorem isNext_grade {name : String} {d : Domain} (hd : (grade name).domain? = some d) (v : Text) :
    (vocabularies name).IsNext v (d.successor v) := by
  cases hd
  exact Vocabulary.isNext_listed (by decide) v

theorem steps_grade (name : String) : (grade name).Steps (vocabularies name) := by
  intro d hd v _
  refine ⟨isNext_grade hd v, ?_⟩
  cases hd
  exact Vocabulary.isPrevious_listed (by decide) v

/-- The fields of a pair of grades. -/
def ranks : List Field := [grade "first", grade "second"]

theorem steps_ranks : ∀ f ∈ ranks, f.Steps (vocabularies f.name) :=
  List.forall_mem_cons.2 ⟨steps_grade _, List.forall_mem_singleton.2 (steps_grade _)⟩

end Sample

end CompositeScan
