import FilterProxy.Config
import FilterProxy.Tree.Decode

/-!
# FilterProxy/Builtin — the filters every proxy knows

* `set_header` writes fixed headers over those of the request.
* `direct_response` answers with a fixed status, so no host is asked.
* `response_header` writes fixed headers over those of the response.
-/

namespace FilterProxy

/-- A filter that every proxy knows. -/
inductive Builtin where
  | setHeader (headers : Headers)
  | directResponse (status : UInt16) (headers : Headers)
  | responseHeader (headers : Headers)
  deriving DecidableEq

namespace Builtin

/-- What a filter does that writes headers over those of a message. -/
def writeHeaders {side : Side} (b : Builtin) (headers : Headers) (p : Parts) :
    Program side (Reply Builtin) :=
  .done ⟨b, { p with headers := p.headers.overwrite headers }, .ok .proceed⟩

/-- How the filters behave; on the side where a filter has nothing to do it lets all pass. -/
def behaviour : Behaviour Builtin where
  onRequest b _ p :=
    match b with
    | .setHeader h => b.writeHeaders h p
    | .directResponse status h => .act (.reply status h) (.done ⟨b, p, .ok .stop⟩)
    | .responseHeader _ => .done ⟨b, p, .ok .proceed⟩
  onResponse b _ p :=
    match b with
    | .responseHeader h => b.writeHeaders h p
    | .setHeader _ | .directResponse _ _ => .done ⟨b, p, .ok .proceed⟩
  onDestroy b _ := .done { filter := b }

/-! ## Configuration -/

/-- The tree of a filter's own configuration; nothing counts as no field. -/
def fieldsOf (k : RecordKind) (c : FilterConfig) : Except Mismatch Fields :=
  match c.config with
  | .null => .ok (.named [])
  | t => k.fields t

/-- Headers given as a map, in order of name. -/
def readHeaders (t : Tree) : Except Mismatch Headers := t.asTexts.map Headers.ofList

/-- The one field of a filter that writes headers. -/
def readHeadersConfig (c : FilterConfig) : Except Mismatch Headers := do
  let k : RecordKind := ⟨"HeadersConfig", 1⟩
  let f ← fieldsOf k c
  let headers ← f.required k 0 "headers" readHeaders
  f.close k
  return headers

/-- Status and headers of a direct response.  Members of a map are looked at by name, so the
headers come first there. -/
def readDirectResponse (c : FilterConfig) : Except Mismatch (Nat × Headers) := do
  let k : RecordKind := ⟨"DirectResponseConfig", 2⟩
  let f ← fieldsOf k c
  let readStatus := f.required k 0 "status" (Tree.asNat 16)
  let readHeaders := f.optional 1 "headers" ({} : Headers) readHeaders
  match f with
  | .named _ =>
    let headers ← readHeaders
    let status ← readStatus
    return (status, headers)
  | .ordered _ =>
    let status ← readStatus
    let headers ← readHeaders
    f.close k
    return (status, headers)

/-- A mismatch as the failure of a configured filter. -/
def failure (c : FilterConfig) (m : Mismatch) : Failure := .filterConfig c.name m.message

/-- Where a configured request filter runs. -/
def pointOf (c : FilterConfig) : RequestPoint := c.point.getD .beforeRoute

/-- The filter that writes headers of requests. -/
def makeSetHeader (c : FilterConfig) : Except Failure (Installer Builtin) :=
  match readHeadersConfig c with
  | .error m => .error (failure c m)
  | .ok headers => .ok [.request (.setHeader headers) (pointOf c)]

/-- The filter that answers by itself, with a status from 100 to 599. -/
def makeDirectResponse (c : FilterConfig) : Except Failure (Installer Builtin) :=
  match readDirectResponse c with
  | .error m => .error (failure c m)
  | .ok (status, headers) =>
    if 100 ≤ status ∧ status ≤ 599 then
      .ok [.request (.directResponse status.toUInt16 headers) (pointOf c)]
    else .error (.filterConfig c.name s!"status {status} out of range")

/-- The filter that writes headers of responses. -/
def makeResponseHeader (c : FilterConfig) : Except Failure (Installer Builtin) :=
  match readHeadersConfig c with
  | .error m => .error (failure c m)
  | .ok headers => .ok [.response (.responseHeader headers) .beforeSend]

end Builtin

/-! ## Beside other filters -/

/-- A filter of the proxy's own or of somebody else's. -/
inductive Filter (κ : Type) where
  | builtin (filter : Builtin)
  | custom (filter : κ)

/-- Change what a program ends in. -/
def Program.map {side : Side} {α β : Type} (f : α → β) : Program side α → Program side β
  | .done a => .done (f a)
  | .act x rest => .act x (rest.map f)
  | .look rest => .look fun v => (rest v).map f

/-- The same reply of a filter seen as another type. -/
def Reply.map {σ τ : Type} (f : σ → τ) (r : Reply σ) : Reply τ := ⟨f r.filter, r.parts, r.answer⟩

/-- The same farewell of a filter seen as another type. -/
def Farewell.map {σ τ : Type} (f : σ → τ) (r : Farewell σ) : Farewell τ := ⟨f r.filter, r.panic⟩

/-- The same registration of a filter seen as another type. -/
def Registration.map {σ τ : Type} (f : σ → τ) : Registration σ → Registration τ
  | .request filter point => .request (f filter) point
  | .response filter point => .response (f filter) point

/-- The behaviour of filters of both origins. -/
def Behaviour.withBuiltins {κ : Type} (β : Behaviour κ) : Behaviour (Filter κ) where
  onAdd
    | .builtin b, id, side => (Builtin.behaviour.onAdd b id side).map .builtin
    | .custom k, id, side => (β.onAdd k id side).map .custom
  onRequest
    | .builtin b, c, p => (Builtin.behaviour.onRequest b c p).map (.map .builtin)
    | .custom k, c, p => (β.onRequest k c p).map (.map .custom)
  onResponse
    | .builtin b, c, p => (Builtin.behaviour.onResponse b c p).map (.map .builtin)
    | .custom k, c, p => (β.onResponse k c p).map (.map .custom)
  onDestroy
    | .builtin b, side => (Builtin.behaviour.onDestroy b side).map (.map .builtin)
    | .custom k, side => (β.onDestroy k side).map (.map .custom)

end FilterProxy
