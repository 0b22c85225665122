/-!
# Blank characters

The characters that separate words: the line and paragraph separators, the spaces of every width, and
the control characters which end or advance a line.
-/
namespace MeasuredBoot.Text

/-- The code points of the blanks, as first and last of each run. -/
def blankRuns : List (Nat × Nat) := [
  (9, 13), (28, 32), (133, 133), (160, 160), (5760, 5760), (8192, 8202), (8232, 8233),
  (8239, 8239), (8287, 8287), (12288, 12288)]

def isBlank (c : Char) : Bool :=
  blankRuns.any fun (first, last) => first ≤ c.toNat && c.toNat ≤ last

/-- Every character that core calls whitespace is a blank. -/
theorem isBlank_of_isWhitespace {c : Char} (h : c.isWhitespace = true) : isBlank c = true := by
  simp only [Char.isWhitespace, Bool.or_eq_true, decide_eq_true_eq] at h
  rcases h with ((rfl | rfl) | rfl) | rfl <;> decide

/-- The text without the blanks at its end. -/
def trimRight (s : String) : String :=
  String.ofList ((s.toList.reverse.dropWhile isBlank).reverse)

end MeasuredBoot.Text
