import Mathlib.Data.List.Forall2
import Mathlib.Data.List.Zip

/-!
# Lists and results

Facts about lists that are worked through in step, and about computations that may fail, for which
the standard library has no name. Lists are in step in the sense of `List.Forall₂`.
-/

namespace CompositeScan

variable {ε α β γ δ : Type}

/-! ## Results -/

section Except

variable {x : Except ε α} {f : α → Except ε β} {b : β} {e : ε}

theorem bind_eq_ok_iff : x >>= f = .ok b ↔ ∃ a, x = .ok a ∧ f a = .ok b := by
  cases x with
  | error e => exact ⟨nofun, fun ⟨_, h, _⟩ ↦ nomatch h⟩
  | ok a => exact ⟨fun h ↦ ⟨a, rfl, h⟩, fun ⟨_, h, hf⟩ ↦ Except.ok.inj h ▸ hf⟩

theorem bind_eq_error_iff :
    x >>= f = .error e ↔ x = .error e ∨ ∃ a, x = .ok a ∧ f a = .error e := by
  cases x with
  | error e' =>
    exact ⟨fun h ↦ .inl (congrArg Except.error (Except.error.inj h)), fun h ↦ h.elim
      (fun h ↦ congrArg Except.error (Except.error.inj h)) fun ⟨_, h, _⟩ ↦ nomatch h⟩
  | ok a =>
    exact ⟨fun h ↦ .inr ⟨a, rfl, h⟩, fun h ↦ h.elim nofun fun ⟨_, h, hf⟩ ↦ Except.ok.inj h ▸ hf⟩

theorem mapM_eq_ok_iff {xs : List α} {ys : List β} :
    xs.mapM f = .ok ys ↔ List.Forall₂ (fun x y ↦ f x = .ok y) xs ys := by
  induction xs generalizing ys with
  | nil =>
    rw [List.mapM_nil, List.forall₂_nil_left_iff]
    exact ⟨fun h ↦ (Except.ok.inj h).symm, fun h ↦ h ▸ rfl⟩
  | cons x xs ih =>
    simp only [List.mapM_cons, bind_eq_ok_iff, ih, List.forall₂_cons_left_iff]
    constructor
    · rintro ⟨y, hy, ys, hys, h⟩
      cases h
      exact ⟨y, ys, hy, hys, rfl⟩
    · rintro ⟨y, ys, hy, hys, rfl⟩
      exact ⟨y, hy, ys, hys, rfl⟩

theorem exists_of_mapM_eq_error {xs : List α} (h : xs.mapM f = .error e) :
    ∃ x ∈ xs, f x = .error e := by
  induction xs with
  | nil => cases h
  | cons x xs ih =>
    rw [List.mapM_cons, bind_eq_error_iff] at h
    rcases h with h | ⟨y, -, h⟩
    · exact ⟨x, List.mem_cons_self, h⟩
    · rcases bind_eq_error_iff.1 h with h | ⟨ys, -, h⟩
      · obtain ⟨x', hx', h⟩ := ih h
        exact ⟨x', List.mem_cons_of_mem x hx', h⟩
      · cases h

end Except

/-! ## Folds -/

theorem foldl_iff {f : α → β → α} {p : α → Prop} {q : β → Prop}
    (hf : ∀ a b, p (f a b) ↔ p a ∧ q b) (a : α) (bs : List β) :
    p (bs.foldl f a) ↔ p a ∧ ∀ b ∈ bs, q b := by
  induction bs generalizing a with
  | nil => simp
  | cons b bs ih => rw [List.foldl_cons, ih, hf, List.forall_mem_cons, and_assoc]

theorem foldl_mem_cons {f : α → α → α} (hf : ∀ a b, f a b = a ∨ f a b = b) (a : α)
    (bs : List α) : bs.foldl f a ∈ a :: bs := by
  induction bs generalizing a with
  | nil => exact List.mem_singleton_self a
  | cons b bs ih =>
    rw [List.foldl_cons]
    rcases List.mem_cons.1 (ih (f a b)) with h | h
    · rw [h]
      rcases hf a b with h | h <;> simp [h]
    · simp [h]

/-! ## Picking from a list -/

/-- To pick more of a list, and the same where something was picked before, adds to what is
picked. -/
theorem filterMap_sublist_filterMap {f g : α → Option β} {l : List α}
    (h : ∀ a ∈ l, ∀ b, f a = some b → g a = some b) : (l.filterMap f).Sublist (l.filterMap g) := by
  induction l with
  | nil => exact List.Sublist.refl _
  | cons a l ih =>
    obtain ⟨ha, hl⟩ := List.forall_mem_cons.1 h
    cases hf : f a with
    | some b =>
      rw [List.filterMap_cons_some hf, List.filterMap_cons_some (ha b hf)]
      exact (ih hl).cons_cons b
    | none =>
      rw [List.filterMap_cons_none hf]
      exact (ih hl).trans ((List.sublist_cons_self a l).filterMap g)

/-! ## Lists in step -/

theorem map_fst_zip_eq_take (as : List α) (bs : List β) :
    (as.zip bs).map Prod.fst = as.take bs.length := by
  induction as generalizing bs with
  | nil => simp
  | cons a as ih => cases bs <;> simp [ih]

theorem map_snd_zip_eq_take (as : List α) (bs : List β) :
    (as.zip bs).map Prod.snd = bs.take as.length := by
  induction as generalizing bs with
  | nil => simp
  | cons a as ih => cases bs <;> simp [ih]

theorem zip_append_of_length_eq (as : List α) {bs : List β} (h : as.length = bs.length)
    (cs : List β) : as.zip (bs ++ cs) = as.zip bs := by
  have hzip : (as ++ []).zip (bs ++ cs) = as.zip bs ++ [].zip cs := List.zip_append h
  rwa [List.append_nil, List.zip_nil_left, List.append_nil] at hzip

theorem zip_take_left (as : List α) (bs : List β) (n : ℕ) :
    (as.take n).zip bs = (as.zip bs).take n := by
  induction as generalizing bs n with
  | nil => simp
  | cons a as ih => cases n <;> cases bs <;> simp [ih]

section Forall₂

variable {R : α → β → Prop} {as : List α} {bs : List β} {cs : List γ}

theorem exists_of_forall₂_mem {b : β} (h : List.Forall₂ R as bs) (hb : b ∈ bs) :
    ∃ a ∈ as, R a b := by
  induction h with
  | nil => cases hb
  | cons hR _ ih =>
    rcases List.mem_cons.1 hb with rfl | hb
    · exact ⟨_, List.mem_cons_self, hR⟩
    · obtain ⟨a, ha, hR⟩ := ih hb
      exact ⟨a, List.mem_cons_of_mem _ ha, hR⟩

theorem exists_forall₂ (h : ∀ a ∈ as, ∃ b, R a b) : ∃ bs, List.Forall₂ R as bs := by
  induction as with
  | nil => exact ⟨[], .nil⟩
  | cons a as ih =>
    obtain ⟨ha, has⟩ := List.forall_mem_cons.1 h
    obtain ⟨b, hb⟩ := ha
    obtain ⟨bs, hbs⟩ := ih has
    exact ⟨b :: bs, .cons hb hbs⟩

theorem exists_of_forall₂_getElem? {i : ℕ} {a : α} (h : List.Forall₂ R as bs)
    (ha : as[i]? = some a) : ∃ b, bs[i]? = some b ∧ R a b := by
  induction h generalizing i with
  | nil => cases ha
  | @cons _ b _ _ hab _ ih =>
    cases i with
    | zero =>
      cases ha
      exact ⟨b, rfl, hab⟩
    | succ i => exact ih ha

theorem forall₂_and_mem (h : List.Forall₂ R as bs) :
    List.Forall₂ (fun a b ↦ a ∈ as ∧ R a b) as bs :=
  List.forall₂_iff_zip.2
    ⟨h.length_eq, fun hab ↦ ⟨(List.of_mem_zip hab).1, List.forall₂_zip h hab⟩⟩

theorem forall₂_comp {S : β → γ → Prop} {T : α → γ → Prop} (hT : ∀ a b c, R a b → S b c → T a c)
    (hR : List.Forall₂ R as bs) (hS : List.Forall₂ S bs cs) : List.Forall₂ T as cs := by
  induction hR generalizing cs with
  | nil =>
    cases hS
    exact .nil
  | cons hab _ ih =>
    cases hS with
    | cons hbc hS => exact .cons (hT _ _ _ hab hbc) (ih hS)

theorem forall₂_zipWith {S : α → γ → Prop} {g : β → γ → δ} {T : α → δ → Prop}
    (hT : ∀ a b c, R a b → S a c → T a (g b c)) (hR : List.Forall₂ R as bs)
    (hS : List.Forall₂ S as cs) : List.Forall₂ T as (List.zipWith g bs cs) := by
  induction hR generalizing cs with
  | nil =>
    cases hS
    exact .nil
  | cons hab _ ih =>
    cases hS with
    | cons hac hS => exact .cons (hT _ _ _ hab hac) (ih hS)

/-- To hold of each element of a list and the one it meets in another list may be said of a list in
step just as well. -/
theorem forall_mem_zip_iff_of_forall₂ {P Q : α → γ → Prop} {S : β → γ → Prop}
    (hQ : ∀ a b c, R a b → P a c → (Q a c ↔ S b c)) (hR : List.Forall₂ R as bs)
    (hP : ∀ p ∈ as.zip cs, P p.1 p.2) :
    (∀ p ∈ as.zip cs, Q p.1 p.2) ↔ ∀ p ∈ bs.zip cs, S p.1 p.2 := by
  induction hR generalizing cs with
  | nil => exact iff_of_true nofun nofun
  | cons hab _ ih =>
    cases cs with
    | nil => exact iff_of_true nofun nofun
    | cons c cs =>
      obtain ⟨hac, hP⟩ := List.forall_mem_cons.1 hP
      simp only [List.zip_cons_cons, List.forall_mem_cons]
      exact and_congr (hQ _ _ _ hab hac) (ih hP)

end Forall₂

end CompositeScan
