import FilterProxy.Proxy
import FilterProxy.Text.Quoted

/-!
# FilterProxy/Proxy/Text — how boards, routings and proxies look in diagnostics

A value is shown on one line, as its kind and its fields by name.
-/

namespace FilterProxy

namespace Text

/-- A kind with its fields. -/
def record (kind : String) (fields : List (String × String)) : String :=
  kind ++ " \x7b " ++ ", ".intercalate (fields.map fun f => f.1 ++ ": " ++ f.2) ++ " \x7d"

/-- A kind that wraps one value. -/
def wrap (kind value : String) : String := kind ++ "(" ++ value ++ ")"

/-- A value that may be missing. -/
def optional : Option String → String
  | none => "None"
  | some value => wrap "Some" value

/-- A word with its first letter in upper case. -/
def capitalize (word : List Char) : List Char :=
  match word with
  | c :: rest => c.toUpper :: rest
  | [] => []

/-- A label of words with underscores between, as one word with inner capitals. -/
def camel (label : String) : String :=
  String.ofList ((label.splitOn "_").flatMap fun word => capitalize word.toList)

/-- Milliseconds: below a second as they are, else in seconds with no zeros at the end. -/
def duration (ms : Nat) : String :=
  if ms < 1000 then s!"{ms}ms"
  else
    let part := ms % 1000
    let digits := (Nat.toDigits 10 (1000 + part)).drop 1
    let kept := (digits.reverse.dropWhile (· = '0')).reverse
    let point := if kept.isEmpty then [] else '.' :: kept
    toString (ms / 1000) ++ String.ofList point ++ "s"

end Text

/-- A status by its kind. -/
def Status.show : Status → String
  | .running => "Running"
  | .paused phase => Text.wrap "Paused" (Text.camel phase.label)
  | .finished ending => Text.wrap "Finished" (Text.camel ending.label)

/-- The diagnostic view of a board. -/
def Board.show {σ : Type} (b : Board σ) : String :=
  Text.record "StreamShared"
    [("id", Text.wrap "StreamId" (toString b.context.id.value.toNat)),
      ("cleaned", toString b.claimed), ("status", b.status.show)]

/-- The diagnostic view of a routing. -/
def Routing.show (r : Routing) : String :=
  Text.record "RoutersWrapper" [("configured", toString r.isConfigured)]

/-- The diagnostic view of settings. -/
def Settings.show (s : Settings) : String :=
  Text.record "StreamSettings"
    [("proxy_name", Text.quote s.proxy),
      ("stop_timeout", Text.optional (s.stopTimeout.map fun ms => Text.duration ms.toNat)),
      ("max_phase_reentries", toString s.maxJumps.toNat),
      ("status_converter", toString s.converter.isSome)]

/-- The diagnostic view of a proxy. -/
def Proxy.show {σ ε : Type} (p : Proxy σ ε) : String :=
  Text.record "Proxy"
    [("settings", p.settings.show), ("filters", toString p.installers.length),
      ("active", toString p.active.size)]

/-- The diagnostic view of a proxy's surroundings, of which only the routing is shown. -/
def Proxy.showSurroundings {σ ε : Type} (p : Proxy σ ε) : String :=
  "ProxyDeps \x7b routers: " ++ p.surroundings.routing.show ++ ", .. \x7d"

end FilterProxy
