/-! Stable sorting by insertion. -/

namespace CallLowering

variable {α : Type}

-- Puts `item` before the first member that it may precede.
def insertStable (le : α → α → Bool) (item : α) : List α → List α
  | [] => [item]
  | head :: rest => if le item head then item :: head :: rest else head :: insertStable le item rest

-- Sorts by `le`; members that may precede each other keep their order.
def stableSort (le : α → α → Bool) : List α → List α
  | [] => []
  | head :: rest => insertStable le head (stableSort le rest)

theorem insertStable_perm (le : α → α → Bool) (item : α) (items : List α) :
    (insertStable le item items).Perm (item :: items) := by
  induction items with
  | nil => exact .refl _
  | cons head rest ih =>
    unfold insertStable
    split
    · exact .refl _
    · exact (List.Perm.cons head ih).trans (.swap item head rest)

theorem stableSort_perm (le : α → α → Bool) (items : List α) : (stableSort le items).Perm items := by
  induction items with
  | nil => exact .refl _
  | cons head rest ih => exact (insertStable_perm le head _).trans (.cons head ih)

end CallLowering
