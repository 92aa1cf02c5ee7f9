/-
Computations that can fail, opened one step at a time.
-/
import Mathlib.Data.List.Forall2

namespace GradingRule

variable {α β ε : Type}

theorem bind_eq_ok_iff {x : Except ε α} {f : α → Except ε β} {b : β} :
    x >>= f = .ok b ↔ ∃ a, x = .ok a ∧ f a = .ok b := by
  cases x with
  | error fault => simp [bind, Except.bind]
  | ok a => simp [bind, Except.bind]

theorem map_eq_ok_iff {x : Except ε α} {f : α → β} {b : β} :
    x.map f = .ok b ↔ ∃ a, x = .ok a ∧ f a = b := by
  cases x with
  | error fault => simp [Except.map]
  | ok a => simp [Except.map]

theorem bind_eq_error_iff {x : Except ε α} {f : α → Except ε β} {fault : ε} :
    x >>= f = .error fault ↔ x = .error fault ∨ ∃ a, x = .ok a ∧ f a = .error fault := by
  cases x with
  | error raised => simp [bind, Except.bind]
  | ok a => simp [bind, Except.bind]

theorem map_eq_error_iff {x : Except ε α} {f : α → β} {fault : ε} :
    x.map f = .error fault ↔ x = .error fault := by
  cases x with
  | error raised => simp [Except.map]
  | ok a => simp [Except.map]

theorem mapError_eq_ok_iff {δ : Type} {x : Except ε α} {f : ε → δ} {a : α} :
    x.mapError f = .ok a ↔ x = .ok a := by
  cases x with
  | error raised => simp [Except.mapError]
  | ok made => simp [Except.mapError]

theorem mapError_bind {δ : Type} (x : Except ε α) (f : α → Except ε β) (g : ε → δ) :
    (x >>= f).mapError g = x.mapError g >>= fun a => (f a).mapError g := by
  cases x with
  | error raised => rfl
  | ok a => rfl

/-- A traversal succeeds exactly when each of its steps does. -/
theorem mapM_eq_ok_iff {f : α → Except ε β} {list : List α} {results : List β} :
    list.mapM f = .ok results ↔ List.Forall₂ (fun a b => f a = .ok b) list results := by
  induction list generalizing results with
  | nil => simp [pure, Except.pure, eq_comm]
  | cons head tail ih =>
      rw [List.mapM_cons, bind_eq_ok_iff, List.forall₂_cons_left_iff]
      refine exists_congr fun result => ?_
      rw [bind_eq_ok_iff]
      constructor
      · rintro ⟨hhead, others, htail, heq⟩
        exact ⟨others, hhead, ih.1 htail, (Except.ok.inj heq).symm⟩
      · rintro ⟨others, hhead, htail, rfl⟩
        exact ⟨hhead, others, ih.2 htail, rfl⟩

theorem exists_mem_of_mem_mapM {f : α → Except ε β} {list : List α} {results : List β}
    (h : list.mapM f = .ok results) {b : β} (hb : b ∈ results) : ∃ a ∈ list, f a = .ok b := by
  induction mapM_eq_ok_iff.1 h with
  | nil => simp at hb
  | @cons head result tail others hhead htail ih =>
      rcases List.mem_cons.1 hb with rfl | hb
      · exact ⟨head, List.mem_cons_self, hhead⟩
      · obtain ⟨a, ha, hfa⟩ := ih (mapM_eq_ok_iff.2 htail) hb
        exact ⟨a, List.mem_cons_of_mem head ha, hfa⟩

theorem exists_mapM_eq_ok {f : α → Except ε β} {list : List α}
    (h : ∀ a ∈ list, ∃ b, f a = .ok b) : ∃ results, list.mapM f = .ok results := by
  induction list with
  | nil => exact ⟨[], rfl⟩
  | cons head tail ih =>
      obtain ⟨result, hresult⟩ := h head List.mem_cons_self
      obtain ⟨others, hothers⟩ := ih fun a ha => h a (List.mem_cons_of_mem head ha)
      exact ⟨result :: others,
        mapM_eq_ok_iff.2 (.cons hresult (mapM_eq_ok_iff.1 hothers))⟩

end GradingRule
