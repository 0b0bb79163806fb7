/-! Sets of code points, given by the sorted list of their maximal ranges. -/
namespace JsClass.Text

/-- Closed ranges in ascending order. -/
abbrev Ranges := List (Nat × Nat)

/-- The search ends at the first range that starts beyond `n`. -/
def Ranges.contains : Ranges → Nat → Bool
  | [], _ => false
  | (lo, hi) :: rest, n => if n < lo then false else n ≤ hi || Ranges.contains rest n

end JsClass.Text
