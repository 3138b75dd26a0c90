/-!
# Labels

The names that jumps go to: one for each function, and two for each conditional. Conditionals
are numbered, and both labels of one share its number.
-/

namespace FunMips

/-- Label at which the body of a function starts (`entry_label`). -/
def entryLabel (name : String) : String := name ++ "_entry"

/-- The labels of one conditional (`IfLabels`). -/
structure BranchLabels where
  /-- Where the branch for equal operands starts. -/
  whenEqual : String
  /-- Where the two branches meet. -/
  done : String
deriving Repr, DecidableEq

/-- The labels of the conditional with the given number. -/
def BranchLabels.ofNumber (number : Nat) : BranchLabels :=
  { whenEqual := "true_branch_" ++ toString number, done := "end_if_" ++ toString number }

/-- The numbers that no conditional has yet: all from `next` on (`LabelAllocator`). -/
structure LabelSupply where
  next : Nat := 0
deriving Repr, DecidableEq

namespace LabelSupply

/-- The supply after that many conditionals. -/
def skip (supply : LabelSupply) (count : Nat) : LabelSupply := ⟨supply.next + count⟩

/-- The labels of the next conditional. -/
def branch (supply : LabelSupply) : BranchLabels := BranchLabels.ofNumber supply.next

/-- The labels of the next conditional, and the supply after it (`if_labels`). -/
def fresh (supply : LabelSupply) : BranchLabels × LabelSupply := (supply.branch, supply.skip 1)

end LabelSupply

end FunMips
