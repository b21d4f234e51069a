import CompositeScan.Proofs.Domain.Listed
import CompositeScan.Proofs.Selection.Build
import CompositeScan.Proofs.Selection.Leap

/-!
# Where leaps pass over a key

A leap from a key out of range does not pass over a key in range, whichever values the two have in
fields of variable length (`Selection.leap_passes_over_none`) — but for one case. To leave a
variable-length value behind, the odometer goes on at the text of the same length that follows. If
the value ends in the greatest character a value may contain, that step carries into the characters
before, and lands behind the shorter texts that the value begins with. With more values after them
these sort after the value, so they may be in range and are passed over
(`Selection.passes_over_gradedNames`). To step instead would have been safe.

Only the value that is left behind matters. The key that must not be lost may have any values in its
fields of variable length, those included that end in the greatest character: it is never moved past
itself. That is why the condition is one on `k` and not on `k'`, and why it does not ask for keys
that conform.
-/

namespace CompositeScan

namespace Selection

variable {V : Vocabularies} {s : Selection} {k k' : Key}

/-- **A leap passes over no key in range.** If fields and bounds agree with the vocabularies, and
the fixed-length fields of both keys have values of these, then a leap from `k` does not give up as
long as a key `k'` in range is ahead, and it goes on at a greater key, which is at or before `k'` or
begins with the values of `k'`. It is enough that each variable-length value of `k` that ends in the
greatest character has no other. -/
theorem leap_passes_over_none (hbuilt : s.Built) (hlaw : LawfulBounds V s.fields s.bounds)
    (hstarts : LawfulStarts V s.fields s.bounds)
    (hk : k.InVocabulary V s.fields) (hk' : k'.InVocabulary V s.fields)
    (hlast : ∀ p ∈ s.fields.zip k.values, ¬p.1.isFixed → p.2.MovesLast)
    (hadm : s.Admits k') (hlt : k < k') :
    s.leapAfter k ≠ .ok .exhausted ∧ ∀ target, s.leapAfter k = .ok (.seek target) →
      k < target ∧ (target ≤ k' ∨ k'.values <+: target.values ∧ k'.values ≠ target.values) := by
  have hcolumns := hbuilt.lawfulColumns hlaw hstarts
  have hspares := leapSpares hcolumns.sparing (hcolumns.passableKey hk hlast) hadm hk' hlt
  refine ⟨hspares.ne_exhausted, fun target hleap ↦ ?_⟩
  exact ⟨lt_of_leapAfter hleap, hspares.le_or_lead hleap⟩

end Selection

namespace Sample

/-- Names whose grade is at most `b`. -/
def gradedNames : Selection :=
  ⟨"rank", [.varying "name", grade "grade"], [.full, ⟨.unbounded, .included ['b']⟩], none, rfl⟩

theorem built_gradedNames : gradedNames.Built :=
  .ofBounds (show Selection.ofBounds "rank" [.varying "name", grade "grade"]
    [.full, ⟨.unbounded, .included ['b']⟩] = _ from rfl)

theorem lawfulBounds_gradedNames :
    LawfulBounds vocabularies gradedNames.fields gradedNames.bounds := by
  refine List.forall_mem_cons.2 ⟨fun d hd ↦ ?_, List.forall_mem_singleton.2 fun d hd ↦ ?_⟩
  · cases hd
  · refine ⟨fun v hv ↦ ?_, fun v _ _ ↦ isNext_grade hd v⟩
    rcases hv with hv | hv <;> cases hv
    rfl

theorem lawfulStarts_gradedNames :
    LawfulStarts vocabularies gradedNames.fields gradedNames.bounds :=
  List.forall_mem_cons.2 ⟨nofun, List.forall_mem_singleton.2 fun _ _ _ hlo ↦ nomatch hlo⟩

end Sample

namespace Selection

theorem leap_passes_over_none_gradedNames :
    Sample.gradedNames.leapAfter (.ofValues [['a'], ['d']]) ≠ .ok .exhausted ∧
      ∀ target, Sample.gradedNames.leapAfter (.ofValues [['a'], ['d']]) = .ok (.seek target) →
        Key.ofValues [['a'], ['d']] < target ∧
          (target ≤ .ofValues [['b'], ['a']] ∨
            (Key.ofValues [['b'], ['a']]).values <+: target.values ∧
              (Key.ofValues [['b'], ['a']]).values ≠ target.values) :=
  leap_passes_over_none Sample.built_gradedNames Sample.lawfulBounds_gradedNames
    Sample.lawfulStarts_gradedNames (by decide) (by decide) (by decide) (by decide) (by decide)

/-- The name `a` is passed over on the way from a name that has it for its beginning and ends in the
greatest character. -/
theorem passes_over_gradedNames :
    Sample.gradedNames.Built ∧
      LawfulBounds Sample.vocabularies Sample.gradedNames.fields Sample.gradedNames.bounds ∧
      LawfulStarts Sample.vocabularies Sample.gradedNames.fields Sample.gradedNames.bounds ∧
      (Key.ofValues [['a', Text.maxDatum], ['d']]).InVocabulary Sample.vocabularies
        Sample.gradedNames.fields ∧
      (Key.ofValues [['a'], ['b']]).InVocabulary Sample.vocabularies Sample.gradedNames.fields ∧
      ¬Sample.gradedNames.Admits (.ofValues [['a', Text.maxDatum], ['d']]) ∧
      Sample.gradedNames.Admits (.ofValues [['a'], ['b']]) ∧
      Key.ofValues [['a', Text.maxDatum], ['d']] < .ofValues [['a'], ['b']] ∧
      Sample.gradedNames.leapAfter (.ofValues [['a', Text.maxDatum], ['d']]) =
        .ok (.seek (.ofValues [['b', Text.minDatum]])) ∧
      Key.ofValues [['a'], ['b']] < .ofValues [['b', Text.minDatum]] ∧
      ¬(Key.ofValues [['a'], ['b']]).values <+: (Key.ofValues [['b', Text.minDatum]]).values :=
  ⟨Sample.built_gradedNames, Sample.lawfulBounds_gradedNames, Sample.lawfulStarts_gradedNames,
    by decide, by decide, by decide, by decide, by decide, rfl, by decide, by decide⟩

end Selection

end CompositeScan
