import Mathlib.Data.List.Perm.Subperm
import Mathlib.Data.List.ProdSigma

/-!
# Searches with a budget

The searches of this library count a budget down and give nothing when it is spent. So what
they are worth is said in two parts at once: an answer comes, and it is the right one.
`Answers` is that statement, and it passes through the searches that ask about every or about
some member of a list.

A budget is enough because a search opens nothing twice. The last lemmas count what there is
to open.
-/

namespace FieldSelection

/-- A search ends, and says `true` exactly if `P` holds. -/
def Answers (search : Option Bool) (P : Prop) : Prop :=
  ∃ b, search = some b ∧ (b = true ↔ P)

theorem Answers.getD_eq_true {search : Option Bool} {P : Prop} (h : Answers search P)
    {d : Bool} : search.getD d = true ↔ P := by
  obtain ⟨b, hb, hP⟩ := h
  rw [hb]
  exact hP

theorem Answers.of_true {P : Prop} (h : P) : Answers (some true) P :=
  ⟨true, rfl, by simp [h]⟩

theorem Answers.of_false {P : Prop} (h : ¬ P) : Answers (some false) P :=
  ⟨false, rfl, by simp [h]⟩

theorem Answers.congr {search : Option Bool} {P Q : Prop} (h : Answers search P)
    (hPQ : P ↔ Q) : Answers search Q := by
  obtain ⟨b, hb, hP⟩ := h
  exact ⟨b, hb, hP.trans hPQ⟩

/-- If there is an answer about each member, there is one about all of them. -/
theorem answers_allM {α : Type} {f : α → Option Bool} {P : α → Prop} :
    ∀ {xs : List α}, (∀ x ∈ xs, Answers (f x) (P x)) → Answers (xs.allM f) (∀ x ∈ xs, P x)
  | [], _ => Answers.of_true (by simp)
  | x :: xs, h => by
      obtain ⟨b, hb, hP⟩ := h x List.mem_cons_self
      have hrest := answers_allM (fun y hy => h y (List.mem_cons_of_mem x hy))
      rw [List.allM, hb]
      cases b with
      | false => exact Answers.of_false (fun hall => by simpa using hP.mpr (hall x (by simp)))
      | true => exact hrest.congr (by simp [hP.mp rfl])

/-- If there is an answer about each member, there is one about some of them. -/
theorem answers_anyM {α : Type} {f : α → Option Bool} {P : α → Prop} :
    ∀ {xs : List α}, (∀ x ∈ xs, Answers (f x) (P x)) → Answers (xs.anyM f) (∃ x ∈ xs, P x)
  | [], _ => Answers.of_false (by simp)
  | x :: xs, h => by
      obtain ⟨b, hb, hP⟩ := h x List.mem_cons_self
      have hrest := answers_anyM (fun y hy => h y (List.mem_cons_of_mem x hy))
      rw [List.anyM, hb]
      cases b with
      | true => exact Answers.of_true ⟨x, by simp, hP.mp rfl⟩
      | false =>
          have hx : ¬ P x := fun hx => by simpa using hP.mpr hx
          exact hrest.congr (by simp [hx])

/-! ## What there is to open -/

section Passed

variable {α : Type} [BEq α] [LawfulBEq α] {opened pending : List α}

/-- What is passed over was opened before. -/
theorem exists_passed (opened pending : List α) :
    ∃ passed, pending = passed ++ pending.dropWhile (opened.contains ·) ∧
      ∀ x ∈ passed, x ∈ opened := by
  refine ⟨pending.takeWhile (opened.contains ·), List.takeWhile_append_dropWhile.symm, ?_⟩
  intro x hx
  have hall := List.all_eq_true.mp (List.all_takeWhile (p := (opened.contains ·)) (l := pending))
  simpa using hall x hx

theorem not_mem_opened {x : α} {rest : List α}
    (h : pending.dropWhile (opened.contains ·) = x :: rest) : x ∉ opened := by
  have hhead := List.head?_dropWhile_not (opened.contains ·) pending
  rw [h] at hhead
  simpa using hhead

end Passed

/-- Different numbers below a bound are no more than the bound. -/
theorem length_le_of_nodup {n : Nat} {opened : List Nat} (hnd : opened.Nodup)
    (hlt : ∀ x ∈ opened, x < n) : opened.length ≤ n := by
  have hsub : opened ⊆ List.range n := fun x hx => List.mem_range.mpr (hlt x hx)
  have hle := (List.subperm_of_subset hnd hsub).length_le
  rwa [List.length_range] at hle

/-- Where the budget is enough for all numbers that were not opened, and there is one, some of it is
left. -/
theorem budget_pos_of_not_mem {n budget x : Nat} {opened : List Nat}
    (henough : n ≤ budget + opened.length) (hnd : opened.Nodup) (hlt : ∀ y ∈ opened, y < n)
    (hnew : x ∉ opened) (hx : x < n) : 0 < budget := by
  have hall : ∀ y ∈ x :: opened, y < n := List.forall_mem_cons.mpr ⟨hx, hlt⟩
  have hle := length_le_of_nodup (List.nodup_cons.mpr ⟨hnew, hnd⟩) hall
  rw [List.length_cons] at hle
  omega

/-- Different pairs of numbers below two bounds are no more than the product of the bounds. -/
theorem length_le_of_nodup_pairs {m n : Nat} {opened : List (Nat × Nat)} (hnd : opened.Nodup)
    (hlt : ∀ x ∈ opened, x.1 < m ∧ x.2 < n) : opened.length ≤ m * n := by
  have hsub : opened ⊆ List.range m ×ˢ List.range n := by
    intro x hx
    obtain ⟨h₁, h₂⟩ := hlt x hx
    exact List.mem_product.mpr ⟨List.mem_range.mpr h₁, List.mem_range.mpr h₂⟩
  have hle := (List.subperm_of_subset hnd hsub).length_le
  rwa [List.length_product, List.length_range, List.length_range] at hle

end FieldSelection
