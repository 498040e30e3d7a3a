/-! A stable sort by insertion. -/

namespace Structuring

variable {α : Type}

def insertSorted (le : α → α → Bool) (x : α) : List α → List α
  | [] => [x]
  | y :: rest => if le x y then x :: y :: rest else y :: insertSorted le x rest

/-- Sort, keeping equal elements in their order. -/
def stableSort (le : α → α → Bool) : List α → List α
  | [] => []
  | x :: rest => insertSorted le x (stableSort le rest)

theorem mem_insertSorted {le : α → α → Bool} {x z : α} {items : List α} :
    z ∈ insertSorted le x items ↔ z = x ∨ z ∈ items := by
  induction items with
  | nil => simp [insertSorted]
  | cons y rest ih =>
    unfold insertSorted
    split
    · exact List.mem_cons
    · simp only [List.mem_cons, ih, or_left_comm]

theorem mem_stableSort {le : α → α → Bool} {z : α} {items : List α} :
    z ∈ stableSort le items ↔ z ∈ items := by
  induction items with
  | nil => rfl
  | cons x rest ih => rw [stableSort, mem_insertSorted, ih, List.mem_cons]

theorem perm_insertSorted (le : α → α → Bool) (x : α) (items : List α) :
    (insertSorted le x items).Perm (x :: items) := by
  induction items with
  | nil => exact .refl _
  | cons y rest ih =>
    unfold insertSorted
    split
    · exact .refl _
    · exact (ih.cons y).trans (.swap x y rest)

/-- Sorting only reorders. -/
theorem perm_stableSort (le : α → α → Bool) (items : List α) : (stableSort le items).Perm items := by
  induction items with
  | nil => exact .refl _
  | cons x rest ih => exact (perm_insertSorted le x _).trans (ih.cons x)

theorem pairwise_insertSorted {le : α → α → Bool}
    (trans : ∀ x y z, le x y = true → le y z = true → le x z = true)
    (total : ∀ x y, le x y = false → le y x = true) {x : α} {items : List α}
    (sorted : items.Pairwise fun y z => le y z = true) :
    (insertSorted le x items).Pairwise fun y z => le y z = true := by
  induction items with
  | nil => exact List.pairwise_singleton _ _
  | cons y rest ih =>
    obtain ⟨first, others⟩ := List.pairwise_cons.mp sorted
    unfold insertSorted
    split
    · next before =>
      refine List.pairwise_cons.mpr ⟨fun z member => ?_, sorted⟩
      rcases List.mem_cons.mp member with rfl | later
      · exact before
      · exact trans x y z before (first z later)
    · next after =>
      refine List.pairwise_cons.mpr ⟨fun z member => ?_, ih others⟩
      rcases mem_insertSorted.mp member with rfl | later
      · exact total _ _ (Bool.eq_false_iff.mpr after)
      · exact first z later

/-- After sorting by a total order, whatever comes first is not greater. -/
theorem pairwise_stableSort {le : α → α → Bool}
    (trans : ∀ x y z, le x y = true → le y z = true → le x z = true)
    (total : ∀ x y, le x y = false → le y x = true) (items : List α) :
    (stableSort le items).Pairwise fun y z => le y z = true := by
  induction items with
  | nil => exact .nil
  | cons x rest ih => exact pairwise_insertSorted trans total ih

end Structuring
