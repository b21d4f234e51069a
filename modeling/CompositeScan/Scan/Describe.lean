import CompositeScan.Scan.Basic

/-!
# Describing a scan

A one-line account of where a scan stands.
-/

namespace CompositeScan

/-- A key as an account shows it. -/
def Key.describe (k : Key) : String := s!"CompositeKey({k.text.quoted})"

/-- A range of keys as an account shows it. -/
def KeyRange.describe (range : KeyRange) : String :=
  "ScanRange \x7b start: " ++ range.lower.describe Key.describe ++ ", end: " ++
    range.upper.describe Key.describe ++ " \x7d"

/-- The name of a position. -/
def Position.name : Position → String
  | unsought => "Seeking"
  | on _ _ => "Positioned"
  | exhausted => "Exhausted"

/-- An optional text in an account. -/
private def describeOption : Option String → String
  | some text => s!"Some({text})"
  | none => "None"

/-- A one-line account of the scan. -/
def Scan.describe (s : Scan) : String :=
  "SkipScanCursor \x7b attribute: " ++ Text.quotedName s.selection.attr ++
    ", range: " ++ describeOption (s.range.map KeyRange.describe) ++
    ", state: " ++ s.position.name ++
    ", current: " ++ describeOption (s.current.map fun e ↦ Text.quotedName e.key.display) ++
    ", seeks: " ++ toString s.seeks ++ " \x7d"

end CompositeScan
