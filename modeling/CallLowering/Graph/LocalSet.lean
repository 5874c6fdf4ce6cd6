import CallLowering.Fault

/-! Finite sets of locals, kept in ascending order. -/

namespace CallLowering

structure LocalSet where
  members : List LocalId := []
  ascending : members.Pairwise (· < ·) := by exact List.Pairwise.nil
deriving DecidableEq

namespace LocalSet

def empty : LocalSet := {}

def size (set : LocalSet) : Nat := set.members.length

def contains (set : LocalSet) (var : LocalId) : Bool := set.members.contains var

def insertSorted (var : LocalId) : List LocalId → List LocalId
  | [] => [var]
  | head :: rest =>
    if var < head then var :: head :: rest
    else if var = head then head :: rest
    else head :: insertSorted var rest

theorem mem_insertSorted (var other : LocalId) (members : List LocalId) :
    other ∈ insertSorted var members ↔ other = var ∨ other ∈ members := by
  induction members with
  | nil => simp [insertSorted]
  | cons head rest ih =>
    unfold insertSorted
    split
    · simp
    · split
      · rename_i same
        subst same
        simp
      · simp only [List.mem_cons, ih]
        constructor
        · rintro (here | added | later) <;> simp_all
        · rintro (added | here | later) <;> simp_all

theorem insertSorted_ascending (var : LocalId) (members : List LocalId)
    (ascending : members.Pairwise (· < ·)) : (insertSorted var members).Pairwise (· < ·) := by
  induction members with
  | nil => simp [insertSorted]
  | cons head rest ih =>
    obtain ⟨above, tail⟩ := List.pairwise_cons.mp ascending
    unfold insertSorted
    split
    · rename_i below
      refine List.pairwise_cons.mpr ⟨?_, ascending⟩
      intro other member
      rcases List.mem_cons.mp member with same | later
      · exact same ▸ below
      · exact Nat.lt_trans below (above other later)
    · rename_i notBelow
      split
      · exact ascending
      · rename_i different
        refine List.pairwise_cons.mpr ⟨?_, ih tail⟩
        intro other member
        rcases (mem_insertSorted var other rest).mp member with same | later
        · exact same ▸ Nat.lt_of_le_of_ne (Nat.le_of_not_lt notBelow) (Ne.symm different)
        · exact above other later

def insert (set : LocalSet) (var : LocalId) : LocalSet where
  members := insertSorted var set.members
  ascending := insertSorted_ascending var set.members set.ascending

def erase (set : LocalSet) (var : LocalId) : LocalSet where
  members := set.members.filter (· ≠ var)
  ascending := set.ascending.filter _

def ofList (vars : List LocalId) : LocalSet := vars.foldl insert empty

def takeFirst (set : LocalSet) (accept : LocalId → Bool) : Option (LocalId × LocalSet) :=
  (set.members.find? accept).map fun var => (var, set.erase var)

def text (set : LocalSet) : String :=
  "\x7b" ++ ", ".intercalate (set.members.map fun var => s!"l{var}") ++ "\x7d"

end LocalSet

end CallLowering
