/-!
# Attention values

The short-, long- and very-long-term importance of an atom. Values are stored as given. Importance
that is added saturates at the ends of the range.
-/

namespace BeliefGraph

structure Attention where
  /-- Short-term importance. -/
  sti : Int32
  /-- Long-term importance. -/
  lti : Int32
  /-- Very-long-term importance. -/
  vlti : Int32
  deriving DecidableEq, Repr

namespace Attention

/-- The value of an atom that no one has attended to. -/
def none : Attention := ⟨0, 0, 0⟩

instance : Inhabited Attention := ⟨none⟩

def text (a : Attention) : String :=
  "[sti=" ++ a.sti.toInt.repr ++ ", lti=" ++ a.lti.toInt.repr ++ ", vlti=" ++ a.vlti.toInt.repr ++ "]"

end Attention

/-- The end of the range nearest to a number outside it; a number inside it is kept. -/
def clampImportance (n : Int) : Int32 :=
  Int32.ofInt (max (-0x80000000) (min n 0x7fffffff))

/-- As an integer, a clamped number is the number itself between the two ends of the range. -/
theorem toInt_clampImportance (n : Int) :
    (clampImportance n).toInt = max (-0x80000000) (min n 0x7fffffff) := by
  have h₁ : -2147483648 ≤ max (-0x80000000 : Int) (min n 0x7fffffff) := by omega
  have h₂ : max (-0x80000000 : Int) (min n 0x7fffffff) < 2147483648 := by omega
  exact Int32.toInt_ofInt_of_le h₁ h₂

/-- The sum of two importances, kept in range. -/
def addImportance (a b : Int32) : Int32 :=
  clampImportance (a.toInt + b.toInt)

/-- How importance flows out of an atom. -/
inductive SpreadMode
  /-- Every link that references the source receives a share; the source keeps all it has. -/
  | broadcast
  /-- The shares handed out are taken from the source. -/
  | conservative
  deriving DecidableEq, Repr, Inhabited

namespace SpreadMode

def name : SpreadMode → String
  | broadcast => "broadcast"
  | conservative => "conservative"

def ofName? : String → Option SpreadMode
  | "broadcast" => some broadcast
  | "conservative" => some conservative
  | _ => none

end SpreadMode

end BeliefGraph
