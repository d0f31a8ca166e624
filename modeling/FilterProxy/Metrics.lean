import FilterProxy.Event

/-!
# FilterProxy/Metrics — streams counted, by proxy, phase and ending

Every `Stat` raises one counter by one.  A counter is a name with labels, in order of label.
-/

namespace FilterProxy

/-- A counter: its name, and its labels in order. -/
structure Counter where
  name : String
  labels : List (String × String)
  deriving DecidableEq, Repr

/-- The counter a stat raises for the proxy called `proxy`. -/
def Stat.counter (proxy : String) : Stat → Counter
  | .created => ⟨"stream_proxy_streams_total", [("proxy", proxy)]⟩
  | .phaseCompleted phase =>
    ⟨"stream_proxy_phase_completed_total", [("phase", phase.label), ("proxy", proxy)]⟩
  | .terminated ending =>
    ⟨"stream_proxy_stream_terminated_total", [("proxy", proxy), ("reason", ending.label)]⟩
  | .cleaned => ⟨"stream_proxy_stream_cleaned_total", [("proxy", proxy)]⟩
  | .filterPanicked => ⟨"stream_proxy_filter_panics_total", [("proxy", proxy)]⟩

/-- Counters and how far each was raised. -/
abbrev Tally := List (Counter × Nat)

namespace Tally

/-- Raise a counter by one. -/
def raise (c : Counter) : Tally → Tally
  | [] => [(c, 1)]
  | (d, n) :: rest => if c = d then (d, n + 1) :: rest else (d, n) :: raise c rest

/-- How far a counter was raised. -/
def value (t : Tally) (c : Counter) : Nat := ((t.find? (·.1 = c)).map (·.2)).getD 0

end Tally

end FilterProxy
