/-
  Options of a builder: the name of the program, and whether fragments may hold variables of
  others.
-/

namespace StructuredFlow

structure Options where
  name : String
  allowCaptures : Bool
deriving DecidableEq, Repr, Inhabited

namespace Options

/-- The options where nothing is said. -/
def default : Options :=
  ⟨"anonymous", false⟩

end Options

end StructuredFlow
