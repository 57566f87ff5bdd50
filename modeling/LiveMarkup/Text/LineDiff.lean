import LiveMarkup.Text.Digits

/-!
# Differences between listings

`lineDiff` shows where two lists of lines first differ, with two lines of context on
either side, and is empty where they do not. A list that is too short is continued with
a placeholder line.
-/

namespace LiveMarkup.Text

/-- What stands for a line that a list does not have. -/
def missingLine : String := "<missing>"

/-- The line at an index of a list continued with placeholders. -/
def lineAt (lines : List String) (i : Nat) : String := lines.getD i missingLine

/-- The first index at which two lists, continued with placeholders, differ. -/
def firstDifference? (expected actual : List String) : Option Nat :=
  (List.range (max expected.length actual.length)).find? fun i =>
    lineAt expected i != lineAt actual i

/-- A line number, right-aligned to four places. -/
def lineNumber (i : Nat) : String := String.ofList (padLeft 4 ' ' (Nat.toDigits 10 (i + 1)))

/-- Both lines at an index, the first difference marked. -/
def diffEntry (expected actual : List String) (first i : Nat) : String :=
  let marker := if i = first then ">" else " "
  marker ++ " " ++ lineNumber i ++ "  expected: " ++ lineAt expected i ++ "\n" ++
    marker ++ " " ++ lineNumber i ++ "    actual: " ++ lineAt actual i ++ "\n"

/-- A report on the first difference of two lists of lines, empty where there is none. -/
def lineDiff (expected actual : List String) : String :=
  match firstDifference? expected actual with
  | none => ""
  | some first =>
    let start := first - 2
    let stop := min (first + 3) (max expected.length actual.length)
    let entries := (List.range' start (stop - start)).map (diffEntry expected actual first)
    "first mismatch at line " ++ toString (first + 1) ++ " (showing " ++ toString (start + 1) ++
      "..=" ++ toString stop ++ "):\n" ++ String.join entries ++ "expected " ++
      toString expected.length ++ " lines, actual " ++ toString actual.length ++ " lines\n"

end LiveMarkup.Text
