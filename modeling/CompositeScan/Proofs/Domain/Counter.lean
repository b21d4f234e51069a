import CompositeScan.Domain.Counter

/-!
# Counters count in order

How a counter moves: it keeps some leading digits, moves the one after them and resets the rest
(`Counter.exists_of_step`). Where one move of a digit leads to the next digit in some order, and the
digit to wrap around to is the first of that order (`Counter.Follows`), this makes one step of the
counter lead to the next sequence in the lexicographic order: no sequence of as many digits stands
between the two (`Counter.Follows.eq_or_lex_of_step`), and a counter that can not move is at the
last (`Counter.Follows.not_lex_of_step_eq_none`).

The sequence from which the counter moves may hold other digits than those that are ordered, as long
as its moves respect them.
-/

namespace CompositeScan.Counter

variable {α : Type} {move : α → Option α} {wrap c d e : α} {digits moved other : List α}

/-- A counter that moves keeps some leading digits, moves the one after them and resets the rest. -/
theorem exists_of_step (h : step move wrap digits = some moved) :
    ∃ p c d x y, digits = p ++ c :: x ∧ moved = p ++ d :: y ∧ move c = some d := by
  induction digits generalizing moved with
  | nil => cases h
  | cons c digits ih =>
    simp only [step] at h
    split at h
    · next rest hrest =>
      cases h
      obtain ⟨p, a, b, x, y, rfl, rfl, hab⟩ := ih hrest
      exact ⟨c :: p, a, b, x, y, rfl, rfl, hab⟩
    · obtain ⟨d, hd, rfl⟩ := Option.map_eq_some_iff.1 h
      exact ⟨[], c, d, digits, _, rfl, rfl, hd⟩

/-- Every digit of a counter that moved is an old one, one that a digit moved to, or a wrapped
one. -/
theorem forall_mem_of_step {D : α → Prop} (hmove : ∀ {c d}, move c = some d → D d) (hwrap : D wrap)
    (hdigits : ∀ e ∈ digits, D e) (h : step move wrap digits = some moved) : ∀ e ∈ moved, D e := by
  induction digits generalizing moved with
  | nil => cases h
  | cons c digits ih =>
    obtain ⟨hc, hdigits⟩ := List.forall_mem_cons.1 hdigits
    simp only [step] at h
    split at h
    · next rest hrest =>
      cases h
      exact List.forall_mem_cons.2 ⟨hc, ih hdigits hrest⟩
    · obtain ⟨d, hd, rfl⟩ := Option.map_eq_some_iff.1 h
      refine List.forall_mem_cons.2 ⟨hmove hd, fun e he ↦ ?_⟩
      rw [List.eq_of_mem_replicate he]
      exact hwrap

theorem step_concat (h : move c = some d) (p : List α) :
    step move wrap (p ++ [c]) = some (p ++ [d]) := by
  induction p with
  | nil => simp [step, h]
  | cons a p ih => rw [List.cons_append, step, ih, List.cons_append]

theorem lex_flip_iff {r : α → α → Prop} (hlen : digits.length = other.length) :
    List.Lex (fun c d ↦ r d c) digits other ↔ List.Lex r other digits := by
  induction digits generalizing other with
  | nil =>
    obtain rfl := List.length_eq_zero_iff.1 hlen.symm
    exact iff_of_false nofun nofun
  | cons c digits ih =>
    cases other with
    | nil => cases hlen
    | cons e other =>
      have hrest := ih (Nat.succ.inj hlen)
      constructor
      · intro h
        cases h with
        | rel hec => exact .rel hec
        | cons h => exact .cons (hrest.1 h)
      · intro h
        cases h with
        | rel hec => exact .rel hec
        | cons h => exact .cons (hrest.2 h)

/-- The moves of a digit follow an order `r` of the digits that satisfy `D`. -/
structure Follows (r : α → α → Prop) (D : α → Prop) (move : α → Option α) (wrap : α) : Prop where
  /-- No digit stands between one and the next. -/
  next : ∀ {c d e}, move c = some d → D e → r c e → d = e ∨ r d e
  /-- Only the last digit has no next one. -/
  last : ∀ {c e}, move c = none → D e → ¬r c e
  /-- The digit to wrap around to is the first. -/
  first : ∀ {e}, D e → wrap = e ∨ r wrap e

namespace Follows

variable {r : α → α → Prop} {D : α → Prop}

theorem eq_or_lex_replicate (h : Follows r D move wrap) (hother : ∀ e ∈ other, D e) :
    List.replicate other.length wrap = other ∨
      List.Lex r (List.replicate other.length wrap) other := by
  induction other with
  | nil => exact .inl rfl
  | cons e other ih =>
    obtain ⟨he, hrest⟩ := List.forall_mem_cons.1 hother
    rw [List.length_cons, List.replicate_succ]
    rcases h.first he with rfl | hlt
    · exact (ih hrest).imp (congrArg _) .cons
    · exact .inr (.rel hlt)

theorem not_lex_of_step_eq_none (h : Follows r D move wrap) (hstep : step move wrap digits = none)
    (hother : ∀ e ∈ other, D e) (hlen : other.length = digits.length) :
    ¬List.Lex r digits other := by
  rw [step_eq_none_iff] at hstep
  intro hlt
  induction hlt with
  | nil => cases hlen
  | rel hce =>
    obtain ⟨hc, -⟩ := List.forall_mem_cons.1 hstep
    exact h.last hc (hother _ List.mem_cons_self) hce
  | cons _ ih =>
    obtain ⟨-, hstep⟩ := List.forall_mem_cons.1 hstep
    exact ih hstep (List.forall_mem_cons.1 hother).2 (Nat.succ.inj hlen)

/-- No sequence stands between one and that to which the counter moves from it. -/
theorem eq_or_lex_of_step (h : Follows r D move wrap) (hstep : step move wrap digits = some moved)
    (hother : ∀ e ∈ other, D e) (hlen : other.length = digits.length)
    (hlt : List.Lex r digits other) : moved = other ∨ List.Lex r moved other := by
  induction hlt generalizing moved with
  | nil => cases hlen
  | @rel c digits e other hce =>
    obtain ⟨he, hrest⟩ := List.forall_mem_cons.1 hother
    simp only [step] at hstep
    split at hstep
    · cases hstep
      exact .inr (.rel hce)
    · obtain ⟨d, hd, rfl⟩ := Option.map_eq_some_iff.1 hstep
      rw [← Nat.succ.inj hlen]
      rcases h.next hd he hce with rfl | hde
      · exact (h.eq_or_lex_replicate hrest).imp (congrArg _) .cons
      · exact .inr (.rel hde)
  | @cons c digits other hlt ih =>
    obtain ⟨-, hrest⟩ := List.forall_mem_cons.1 hother
    simp only [step] at hstep
    split at hstep
    · next rest hstep' =>
      cases hstep
      exact (ih hstep' hrest (Nat.succ.inj hlen)).imp (congrArg _) .cons
    · next hnone => exact absurd hlt (h.not_lex_of_step_eq_none hnone hrest (Nat.succ.inj hlen))

end Follows

end CompositeScan.Counter
