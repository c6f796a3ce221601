import Rollcall.Member

/-!
# Rounds of display

Each round collects the properties of the contributors and shows on the board what the member knows
now: while it runs, a current view of all; at other times, a view of the member alone.
-/

namespace Rollcall.Display

/-- The name of the loop that does these rounds. -/
def name : String := "local-updater"

/-- The view of the moment, with the properties of the contributors; none if it cannot be built. -/
def compute (m : Member) : Member × Option View :=
  let m := { m with known := { m.known with properties := m.contributors.collect } }
  (m, if m.isRunning then (m.known.view true).toOption else some m.isolated)

/-- A round, and the pause after it. -/
def round (m : Member) : Member × Duration × List Notice :=
  let (m, v) := compute m
  let (m, notices) := match v with
    | some v => m.present v
    | none => (m, [])
  let m := { m with display := m.display.increment }
  (m, m.display.current, notices)

end Rollcall.Display
