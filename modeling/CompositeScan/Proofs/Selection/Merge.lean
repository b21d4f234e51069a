import CompositeScan.Proofs.Interval
import CompositeScan.Proofs.Lists
import CompositeScan.Proofs.Selection.Terms
import CompositeScan.Proofs.Vocabulary

/-!
# Merged constraints

The tightest terms of the fields become bounds in two steps: strict terms are stepped and chains are
relaxed. This module says what that does to the values let in. Stepping a strict term keeps the
values of the vocabulary that it lets in (`Side.IsInward.admits_iff`). Relaxing a chain keeps each
term, steps it or gives it up (`Field.Merges`), and gives none up if every strict one has a
neighbour (`Bound.relaxChain_settles`).

Both sides are dealt with at once: `Side.Admits` and `Side.IsInward` are the two readings of a bound
and of a step. Constraints for which all this goes well are `Constraint.WellPosed`.

## Chains

A chain is the run of bounded fields from the first one on. A selection leaves a bound of it strict
only at its end, and makes the others inclusive, which would let in the value that a strict term was
to leave out. This is why such a term is stepped, and why, if it has no neighbour to be stepped to,
it becomes the end of the chain and all terms behind it are given up
(`Bound.relaxChain_settles_or`). The first term is never given up (`Bound.relaxChain_head`), and
what comes out is a chain in which only the last bound is strict (`Bound.closeChain_relaxChain`).
Behind a field without a term there is no chain, and terms are left as they are.
-/

namespace CompositeScan

/-! ## Steps into the range -/

namespace Side

/-- An answer to the question which value stands next to `v`, going into the range. -/
def IsInward (side : Side) (V : Vocabulary) (v : Text) (answer : Except StepError Text) : Prop :=
  match side with
  | .lower => V.IsNext v answer
  | .upper => V.IsPrevious v answer

namespace IsInward

variable {side : Side} {V : Vocabulary} {v w next : Text}

theorem mem (h : side.IsInward V v (.ok next)) : next ∈ V := by
  cases side with
  | lower => exact Vocabulary.IsNext.mem h
  | upper => exact Vocabulary.IsPrevious.mem h

/-- The neighbour, let in, lets in what the value does that is left out. -/
theorem admits_iff (h : side.IsInward V v (.ok next)) (hw : w ∈ V) :
    side.Admits (.included next) w ↔ side.Admits (.excluded v) w := by
  cases side with
  | lower =>
    have h : V.IsNext v (.ok next) := h
    exact ⟨h.lt.trans_le, h.le hw⟩
  | upper =>
    have h : V.IsPrevious v (.ok next) := h
    exact ⟨fun hle ↦ lt_of_le_of_lt (α := Text) hle h.lt, h.le hw⟩

theorem not_admits {last : Text} (h : side.IsInward V v (.error (.exhausted last)))
    (hw : w ∈ V) : ¬side.Admits (.excluded v) w := by
  cases side with
  | lower => exact h w hw
  | upper => exact h w hw

theorem not_mem {value : Text} {domain : String}
    (h : side.IsInward V v (.error (.outsideDomain value domain))) : v ∉ V := by
  cases side with
  | lower => exact h
  | upper => exact h

end IsInward

end Side

namespace Field

variable {V : Vocabulary} {f : Field} {d : Domain} {side : Side} {attr : String}
  {term b : Bound Text} {p : Bound Text × Option Text} {lit next v w : Text}

theorem Steps.isInward (hf : f.Steps V) (hd : f.domain? = some d) (hv : v ∈ V) (side : Side) :
    side.IsInward V v (side.inward d v) := by
  cases side with
  | lower => exact (hf d hd v hv).1
  | upper => exact (hf d hd v hv).2

/-- The value of the bound is in the vocabulary, if the field is of fixed length. -/
def Spells (V : Vocabulary) (f : Field) (b : Bound Text) : Prop :=
  ∀ d, f.domain? = some d → ∀ lit, b.value? = some lit → lit ∈ V

theorem standIn?_eq_some (h : f.standIn? side lit = .ok (some next)) :
    ∃ d, f.domain? = some d ∧ side.inward d lit = .ok next ∧ next.length = lit.length := by
  rw [standIn?] at h
  split at h
  · cases h
  · next d hd =>
    split at h
    · next answer hanswer =>
      split at h
      · next hlen =>
        cases h
        exact ⟨d, hd, hanswer, hlen⟩
      · cases h
    · cases h
    · cases h

/-- A literal of the vocabulary is no error, and stepped if there is a value further in. -/
theorem exists_standIn? (side : Side) (w : Text) (hf : f.Steps V)
    (hlit : ∀ d, f.domain? = some d → lit ∈ V) :
    ∃ next?, f.standIn? side lit = .ok next? ∧
      (f.isFixed → w ∈ V → side.Admits (.excluded lit) w → next?.isSome) := by
  rw [standIn?]
  cases hd : f.domain? with
  | none => exact ⟨none, rfl, fun hfixed ↦ by simp [isFixed, hd] at hfixed⟩
  | some d =>
    have hinward := hf.isInward hd (hlit d hd) side
    cases hanswer : side.inward d lit with
    | ok next =>
      rw [hanswer] at hinward
      have hlen := Vocabulary.length_eq_of_mem hinward.mem (hlit d hd)
      exact ⟨some next, by simp only [hanswer, hlen, if_true], fun _ _ _ ↦ rfl⟩
    | error e =>
      rw [hanswer] at hinward
      cases e with
      | exhausted last =>
        exact ⟨none, by simp only [hanswer], fun _ hw hadm ↦ absurd hadm (hinward.not_admits hw)⟩
      | outsideDomain value domain => exact absurd (hlit d hd) hinward.not_mem

/-- What a term on the field comes to when it is kept: it stays, or it is strict and its literal is
stepped. -/
inductive Keeps (f : Field) (side : Side) (term : Bound Text) : Bound Text → Prop where
  /-- It stays. -/
  | same : Keeps f side term term
  /-- Its literal is stepped. -/
  | stepped {d : Domain} {lit next : Text} (hd : f.domain? = some d)
    (hterm : term = .excluded lit) (hnext : side.inward d lit = .ok next)
    (hlen : next.length = lit.length) : Keeps f side term (.included next)

namespace Keeps

theorem admits_iff (h : f.Keeps side term b) (hf : f.Steps V) (hterm : f.Spells V term)
    (hv : f.Takes V v) : side.Admits b v ↔ side.Admits term v := by
  cases h with
  | same => rfl
  | stepped hd hexcl hnext _ =>
    subst hexcl
    have hinward := hf.isInward hd (hterm _ hd _ rfl) side
    rw [hnext] at hinward
    exact hinward.admits_iff ((takes_iff_of_domain hd).1 hv)

theorem spells (h : f.Keeps side term b) (hf : f.Steps V) (hterm : f.Spells V term) :
    f.Spells V b := by
  cases h with
  | same => exact hterm
  | stepped hd hexcl hnext _ =>
    subst hexcl
    rintro d' hd' _ ⟨⟩
    have hinward := hf.isInward hd (hterm _ hd _ rfl) side
    rw [hnext] at hinward
    exact hinward.mem

theorem exists_value? (h : f.Keeps side term b) (hlit : term.value? = some lit) :
    ∃ v, b.value? = some v ∧ v.length = lit.length := by
  cases h with
  | same => exact ⟨lit, hlit, rfl⟩
  | stepped hd hexcl hnext hlen =>
    subst hexcl
    cases hlit
    exact ⟨_, rfl, hlen⟩

end Keeps

/-- What merging may make of a term on the field: it is kept or given up. -/
def Merges (f : Field) (side : Side) (term b : Bound Text) : Prop :=
  f.Keeps side term b ∨ b = .unbounded

namespace Merges

theorem admits (h : f.Merges side term b) (hf : f.Steps V) (hterm : f.Spells V term)
    (hv : f.Takes V v) (hadm : side.Admits term v) : side.Admits b v := by
  rcases h with h | rfl
  · exact (h.admits_iff hf hterm hv).2 hadm
  · cases side <;> trivial

theorem spells (h : f.Merges side term b) (hf : f.Steps V) (hterm : f.Spells V term) :
    f.Spells V b := by
  rcases h with h | rfl
  · exact h.spells hf hterm
  · exact nofun

end Merges

theorem keeps_of_stepTerm (h : f.stepTerm attr side term = .ok p) :
    f.Keeps side term p.1 ∧ ∀ next, p.2 = some next → f.Keeps side term (.included next) := by
  rw [stepTerm.eq_def] at h
  split at h
  · next lit =>
    split at h
    · next next? hstandIn =>
      cases h
      refine ⟨.same, fun next hnext ↦ ?_⟩
      cases hnext
      obtain ⟨d, hd, hnext, hlen⟩ := standIn?_eq_some hstandIn
      exact .stepped hd rfl hnext hlen
    · cases h
  · cases h
    exact ⟨.same, nofun⟩

theorem exists_stepTerm (attr : String) (w : Text) (hf : f.Steps V) (hterm : f.Spells V term) :
    ∃ p, f.stepTerm attr side term = .ok p ∧
      (f.isFixed → w ∈ V → side.Admits term w → p.1.isExclusive → p.2.isSome) := by
  rw [stepTerm.eq_def]
  cases term with
  | excluded lit =>
    obtain ⟨next?, hstandIn, hsome⟩ :=
      exists_standIn? side w hf fun d hd ↦ hterm d hd lit rfl
    simp only [hstandIn]
    exact ⟨_, rfl, fun hfixed hw hadm _ ↦ hsome hfixed hw hadm⟩
  | unbounded => exact ⟨_, rfl, nofun⟩
  | included lit => exact ⟨_, rfl, nofun⟩

end Field

/-! ## Relaxed chains -/

namespace Bound

variable {b : Bound Text} {p : Bound Text × Option Text} {terms : List (Bound Text × Option Text)}

/-- The bound is the term of the pair, or is at the neighbour that goes with it. -/
def Settles (p : Bound Text × Option Text) (b : Bound Text) : Prop :=
  b = p.1 ∨ ∃ next, p.2 = some next ∧ b = .included next

/-- In a relaxed chain every term is settled or given up. -/
theorem relaxChain_settles_or (terms : List (Bound Text × Option Text)) :
    List.Forall₂ (fun p b ↦ Settles p b ∨ b = .unbounded) terms (relaxChain terms) := by
  have stay : ∀ terms : List (Bound Text × Option Text),
      List.Forall₂ (fun p b ↦ Settles p b ∨ b = .unbounded) terms (terms.map Prod.fst) :=
    fun terms ↦ List.forall₂_map_right_iff.2 (List.forall₂_same.2 fun p _ ↦ .inl (.inl rfl))
  fun_induction relaxChain terms with
  | case1 => exact .nil
  | case2 next? terms => exact .cons (.inl (.inl rfl)) (stay terms)
  | case3 v next? terms ih => exact .cons (.inl (.inl rfl)) ih
  | case4 v next terms ih => exact .cons (.inl (.inr ⟨next, rfl, rfl⟩)) ih
  | case5 v terms =>
    refine .cons (.inl (.inl rfl)) ?_
    split
    · split
      · exact List.forall₂_map_right_iff.2 (List.forall₂_same.2 fun p _ ↦ .inr rfl)
      · exact stay _
    · exact .nil

/-- The first term of a chain is never given up. -/
theorem relaxChain_head (p : Bound Text × Option Text) (terms : List (Bound Text × Option Text)) :
    ∃ b bs, relaxChain (p :: terms) = b :: bs ∧ Settles p b := by
  obtain ⟨b, next?⟩ := p
  cases b with
  | unbounded => exact ⟨_, _, rfl, .inl rfl⟩
  | included v => exact ⟨_, _, rfl, .inl rfl⟩
  | excluded v =>
    cases next? with
    | none => exact ⟨_, _, rfl, .inl rfl⟩
    | some next => exact ⟨_, _, rfl, .inr ⟨next, rfl, rfl⟩⟩

theorem closeChain_cons_of_not {b next : Bound Text} (h : ¬(b.IsBounded ∧ next.IsBounded))
    (bs : List (Bound Text)) : closeChain (b :: next :: bs) = b :: next :: bs := by
  rw [closeChain, if_neg h]

theorem closeChain_unbounded (bs : List (Bound Text)) :
    closeChain (.unbounded :: bs) = .unbounded :: bs := by
  cases bs with
  | nil => rfl
  | cons b bs => exact closeChain_cons_of_not (fun h ↦ not_isBounded_unbounded h.1) bs

theorem closeChain_included (v : Text) (bs : List (Bound Text)) :
    closeChain (.included v :: bs) = .included v :: closeChain bs := by
  cases bs with
  | nil => rfl
  | cons b bs =>
    rw [closeChain]
    split
    · rfl
    · next h =>
      have hb : b = .unbounded := by
        cases b with
        | unbounded => rfl
        | included w => exact absurd ⟨rfl, rfl⟩ h
        | excluded w => exact absurd ⟨rfl, rfl⟩ h
      rw [hb, closeChain_unbounded]

/-- If every strict term before it has a neighbour, a term is not given up. -/
theorem settles_of_relaxChain {i : ℕ} (h : ∀ q ∈ terms.take i, q.1.isExclusive → q.2.isSome)
    (hp : terms[i]? = some p) (hb : (relaxChain terms)[i]? = some b) : Settles p b := by
  fun_induction relaxChain terms generalizing i with
  | case1 => cases hp
  | case2 next? terms =>
    rw [← List.map_cons (f := Prod.fst) (a := (Bound.unbounded, next?)), List.getElem?_map,
      hp] at hb
    exact .inl (Option.some_inj.1 hb).symm
  | case3 v next? terms ih =>
    rcases i with - | i
    · cases hp
      exact .inl (Option.some_inj.1 hb).symm
    · exact ih (List.forall_mem_cons.1 h).2 hp hb
  | case4 v next terms ih =>
    rcases i with - | i
    · cases hp
      exact .inr ⟨next, rfl, (Option.some_inj.1 hb).symm⟩
    · exact ih (List.forall_mem_cons.1 h).2 hp hb
  -- A strict term without a neighbour is what breaks a chain.
  | case5 v terms =>
    rcases i with - | i
    · cases hp
      exact .inl (Option.some_inj.1 hb).symm
    · exact absurd ((List.forall_mem_cons.1 h).1 rfl) nofun

/-- If every strict term has a neighbour, none is given up. -/
theorem relaxChain_settles (h : ∀ p ∈ terms, p.1.isExclusive → p.2.isSome) :
    List.Forall₂ Settles terms (relaxChain terms) := by
  refine List.forall₂_iff_get.2 ⟨(relaxChain_settles_or terms).length_eq, ?_⟩
  intro i hi hi'
  exact settles_of_relaxChain (fun q hq ↦ h q (List.mem_of_mem_take hq))
    (List.getElem?_eq_getElem hi) (List.getElem?_eq_getElem hi')

/-- A relaxed chain is closed already: what is left strict is followed by nothing. -/
theorem closeChain_relaxChain (terms : List (Bound Text × Option Text)) :
    closeChain (relaxChain terms) = relaxChain terms := by
  fun_induction relaxChain terms with
  | case1 => rfl
  | case2 next? terms => exact closeChain_unbounded _
  | case3 v next? terms ih => rw [closeChain_included, ih]
  | case4 v next terms ih => rw [closeChain_included, ih]
  | case5 v terms =>
    split
    · next b next? terms =>
      split
      · exact closeChain_cons_of_not (fun h ↦ not_isBounded_unbounded h.2) _
      · next hb => exact closeChain_cons_of_not (fun h ↦ hb h.2) _
    · rfl

theorem closeChain_of_loosens {bs bs' : List (Bound Text)} (hclosed : closeChain bs = bs)
    (h : List.Forall₂ Loosens bs bs') : closeChain bs' = bs' := by
  induction h with
  | nil => rfl
  | @cons b b' bs bs' hb htail ih =>
    cases htail with
    | nil => rfl
    | @cons next next' bs bs' hnext htail =>
      have hiff : b'.IsBounded ∧ next'.IsBounded ↔ b.IsBounded ∧ next.IsBounded :=
        and_congr hb.isBounded_iff hnext.isBounded_iff
      by_cases hbounded : b.IsBounded ∧ next.IsBounded
      · rw [closeChain, if_pos hbounded, List.cons.injEq] at hclosed
        have hb' : b' = b := hb.elim id (·.trans hclosed.1)
        rw [closeChain, if_pos (hiff.2 hbounded), ih hclosed.2, hb', hclosed.1]
      · exact closeChain_cons_of_not (hbounded ∘ hiff.1) bs'

end Bound

/-! ## The terms of one side -/

section Side

variable {attr : String} {side : Side} {fields : List Field} {terms bs : List (Bound Text)}
  {V : Vocabularies}

theorem Side.merge_eq_ok_iff :
    side.merge attr fields terms = .ok bs ↔
      ∃ stepped, List.Forall₂ (fun x p ↦ x.1.stepTerm attr side x.2 = .ok p)
        (fields.zip terms) stepped ∧ Bound.relaxChain stepped = bs := by
  rw [Side.merge, bind_eq_ok_iff]
  simp only [mapM_eq_ok_iff]
  exact exists_congr fun stepped ↦ and_congr_right fun _ ↦ ⟨Except.ok.inj, congrArg _⟩

theorem Field.keeps_of_settles {f : Field} {term b : Bound Text} {p : Bound Text × Option Text}
    (hstep : f.stepTerm attr side term = .ok p) (h : Bound.Settles p b) :
    f.Keeps side term b := by
  obtain ⟨hfst, hsnd⟩ := Field.keeps_of_stepTerm hstep
  rcases h with rfl | ⟨next, hnext, rfl⟩
  · exact hfst
  · exact hsnd next hnext

theorem Side.merges_of_merge (h : side.merge attr fields terms = .ok bs) :
    List.Forall₂ (fun x b ↦ x.1.Merges side x.2 b) (fields.zip terms) bs := by
  obtain ⟨stepped, hstepped, rfl⟩ := Side.merge_eq_ok_iff.1 h
  refine forall₂_comp (fun x p b hstep hb ↦ ?_) hstepped (Bound.relaxChain_settles_or stepped)
  exact hb.imp_left (Field.keeps_of_settles hstep)

theorem Side.keeps_head_of_merge {f : Field} {term : Bound Text}
    (h : side.merge attr (f :: fields) (term :: terms) = .ok bs) :
    ∃ b, bs.head? = some b ∧ f.Keeps side term b := by
  obtain ⟨stepped, hstepped, rfl⟩ := Side.merge_eq_ok_iff.1 h
  cases hstepped with
  | cons hstep _ =>
    obtain ⟨b, bs, hrelax, hb⟩ := Bound.relaxChain_head _ _
    exact ⟨b, by rw [hrelax]; rfl, Field.keeps_of_settles hstep hb⟩

/-- The merged terms of a side are a closed chain. -/
theorem Side.closeChain_of_merge (h : side.merge attr fields terms = .ok bs) :
    Bound.closeChain bs = bs := by
  obtain ⟨stepped, -, rfl⟩ := Side.merge_eq_ok_iff.1 h
  exact Bound.closeChain_relaxChain stepped

/-- Terms at literals of the vocabularies can be merged. -/
theorem Side.exists_merge
    (h : ∀ x ∈ fields.zip terms, x.1.Steps (V x.1.name) ∧ x.1.Spells (V x.1.name) x.2) :
    ∃ bs, side.merge attr fields terms = .ok bs := by
  have hsteps : ∀ x ∈ fields.zip terms, ∃ p, x.1.stepTerm attr side x.2 = .ok p := by
    intro x hx
    obtain ⟨hf, hterm⟩ := h x hx
    obtain ⟨p, hp, -⟩ := Field.exists_stepTerm attr [] hf hterm
    exact ⟨p, hp⟩
  obtain ⟨stepped, hstepped⟩ := exists_forall₂ hsteps
  exact ⟨_, Side.merge_eq_ok_iff.2 ⟨stepped, hstepped, rfl⟩⟩

theorem Side.keeps_of_merge
    (h : ∀ x ∈ fields.zip terms, x.1.Steps (V x.1.name) ∧ x.1.Spells (V x.1.name) x.2 ∧
      x.1.isFixed ∧ ∃ w ∈ V x.1.name, side.Admits x.2 w)
    (hmerge : side.merge attr fields terms = .ok bs) :
    List.Forall₂ (fun x b ↦ x.1.Keeps side x.2 b) (fields.zip terms) bs := by
  obtain ⟨stepped, hstepped, rfl⟩ := Side.merge_eq_ok_iff.1 hmerge
  have hsome : ∀ p ∈ stepped, p.1.isExclusive → p.2.isSome := by
    intro p hp
    obtain ⟨x, hx, hstep⟩ := exists_of_forall₂_mem hstepped hp
    obtain ⟨hf, hterm, hfixed, w, hw, hadm⟩ := h x hx
    obtain ⟨p', hp', hsome⟩ := Field.exists_stepTerm attr w hf hterm
    rw [hstep, Except.ok.injEq] at hp'
    exact hp' ▸ hsome hfixed hw hadm
  refine forall₂_comp (fun x p b hstep hb ↦ ?_) hstepped (Bound.relaxChain_settles hsome)
  exact Field.keeps_of_settles hstep hb

end Side

/-! ## Both sides -/

namespace Constraint

variable {attr : String} {fields : List Field} {constraints : List Constraint}
  {bounds : List (Interval Text)} {values : List Text} {V : Vocabularies}

theorem stray?_eq_none_iff :
    stray? fields constraints = none ↔ ∀ c ∈ constraints, c.field ∈ fields.map Field.name := by
  simp [stray?, List.find?_eq_none]

theorem merge_eq_ok_iff :
    merge attr fields constraints = .ok bounds ↔
      stray? fields constraints = none ∧ ∃ lowers uppers,
        Side.lower.merge attr fields ((terms constraints fields).map Interval.lower) = .ok lowers ∧
        Side.upper.merge attr fields ((terms constraints fields).map Interval.upper) = .ok uppers ∧
        List.zipWith Interval.mk lowers uppers = bounds := by
  rw [merge]
  split
  · next c hc => simp [hc]
  · next hnone =>
    simp only [bind_eq_ok_iff, hnone, true_and]
    constructor
    · rintro ⟨lowers, hlowers, uppers, huppers, h⟩
      exact ⟨lowers, uppers, hlowers, huppers, Except.ok.inj h⟩
    · rintro ⟨lowers, uppers, hlowers, huppers, rfl⟩
      exact ⟨lowers, hlowers, uppers, huppers, rfl⟩

/-- The fields have distinct names, the fixed-length ones step the values of their vocabularies, and
the constraints compare them with values of the vocabularies. A constraint may name no field. -/
structure Lawful (V : Vocabularies) (fields : List Field) (constraints : List Constraint) :
    Prop where
  /-- There is a field. -/
  ne_nil : fields ≠ []
  /-- Names are distinct. -/
  nodup : (fields.map Field.name).Nodup
  /-- Values are stepped in the vocabularies. -/
  steps : ∀ f ∈ fields, f.Steps (V f.name)
  /-- Fixed-length fields are compared with values of their vocabularies. -/
  literal_mem : ∀ f ∈ fields, f.isFixed → ∀ c ∈ constraints, c.field = f.name →
    c.literal ∈ V f.name

/-- Every constraint names a field as well. -/
structure WellPosed (V : Vocabularies) (fields : List Field) (constraints : List Constraint) : Prop
    extends Lawful V fields constraints where
  /-- Every constraint names a field. -/
  named : ∀ c ∈ constraints, c.field ∈ fields.map Field.name

theorem Lawful.wellPosed (h : Lawful V fields constraints)
    (hmerge : merge attr fields constraints = .ok bounds) : WellPosed V fields constraints :=
  ⟨h, stray?_eq_none_iff.1 (merge_eq_ok_iff.1 hmerge).1⟩

/-- Values that the fields take and that meet the constraints, one for each field. -/
abbrev Solves (V : Vocabularies) (fields : List Field) (constraints : List Constraint)
    (values : List Text) : Prop :=
  List.Forall₂ (fun f v ↦ f.Takes (V f.name) v ∧ v ∈ tightest constraints f.name) fields values

theorem WellPosed.spells (h : WellPosed V fields constraints) {f : Field} (hf : f ∈ fields) :
    f.Spells (V f.name) (tightest constraints f.name).lower ∧
      f.Spells (V f.name) (tightest constraints f.name).upper := by
  have hfixed : ∀ d, f.domain? = some d → f.isFixed := fun d hd ↦ by rw [Field.isFixed, hd]; rfl
  refine ⟨fun d hd lit hlit ↦ ?_, fun d hd lit hlit ↦ ?_⟩
  · obtain ⟨c, hc, hname, rfl⟩ := exists_literal_of_tightestAt .lower hlit
    exact h.literal_mem f hf (hfixed d hd) c hc hname
  · obtain ⟨c, hc, hname, rfl⟩ := exists_literal_of_tightestAt .upper hlit
    exact h.literal_mem f hf (hfixed d hd) c hc hname

theorem zip_map_terms (h : (fields.map Field.name).Nodup) (g : Interval Text → Bound Text) :
    fields.zip ((terms constraints fields).map g) =
      fields.map fun f ↦ (f, g (tightest constraints f.name)) := by
  rw [terms_eq_map h, List.map_map, ← List.map_prod_left_eq_zip]
  rfl

theorem merges_of_merge (hnodup : (fields.map Field.name).Nodup)
    (h : merge attr fields constraints = .ok bounds) :
    List.Forall₂ (fun f b ↦ f.Merges .lower (tightest constraints f.name).lower b.lower ∧
      f.Merges .upper (tightest constraints f.name).upper b.upper) fields bounds := by
  obtain ⟨-, lowers, uppers, hlowers, huppers, rfl⟩ := merge_eq_ok_iff.1 h
  have hlower := Side.merges_of_merge hlowers
  have hupper := Side.merges_of_merge huppers
  rw [zip_map_terms hnodup, List.forall₂_map_left_iff] at hlower hupper
  exact forall₂_zipWith (fun f lo hi hlo hhi ↦ ⟨hlo, hhi⟩) hlower hupper

theorem keeps_head_of_merge {f : Field} (h : merge attr (f :: fields) constraints = .ok bounds) :
    ∃ b, bounds.head? = some b ∧ f.Keeps .lower (tightest constraints f.name).lower b.lower ∧
      f.Keeps .upper (tightest constraints f.name).upper b.upper := by
  obtain ⟨-, lowers, uppers, hlowers, huppers, rfl⟩ := merge_eq_ok_iff.1 h
  obtain ⟨lo, hlo, hlower⟩ := Side.keeps_head_of_merge hlowers
  obtain ⟨up, hup, hupper⟩ := Side.keeps_head_of_merge huppers
  obtain ⟨lowers, rfl⟩ := List.head?_eq_some_iff.1 hlo
  obtain ⟨uppers, rfl⟩ := List.head?_eq_some_iff.1 hup
  exact ⟨⟨lo, up⟩, rfl, hlower, hupper⟩

theorem WellPosed.exists_merge (h : WellPosed V fields constraints) (attr : String) :
    ∃ bounds, merge attr fields constraints = .ok bounds := by
  have hside : ∀ (side : Side) (g : Interval Text → Bound Text),
      (∀ f ∈ fields, f.Spells (V f.name) (g (tightest constraints f.name))) →
      ∃ bs, side.merge attr fields ((terms constraints fields).map g) = .ok bs := by
    intro side g hspells
    refine Side.exists_merge (V := V) fun x hx ↦ ?_
    rw [zip_map_terms h.nodup] at hx
    obtain ⟨f, hf, rfl⟩ := List.mem_map.1 hx
    exact ⟨h.steps f hf, hspells f hf⟩
  obtain ⟨lowers, hlowers⟩ := hside .lower Interval.lower fun f hf ↦ (h.spells hf).1
  obtain ⟨uppers, huppers⟩ := hside .upper Interval.upper fun f hf ↦ (h.spells hf).2
  exact ⟨_, merge_eq_ok_iff.2 ⟨stray?_eq_none_iff.2 h.named, _, _, hlowers, huppers, rfl⟩⟩

end Constraint

end CompositeScan
