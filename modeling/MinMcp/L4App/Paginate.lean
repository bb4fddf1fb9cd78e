import MinMcp.L4App.Results
import MinMcp.Core.Json.Compare

/-!
# Following a paginated list

`Surface::paginate` (src/surface/dispatch.rs:426-515): from the first result, read
the cursor, write it into the arguments, call again, and collect the items, up to
`max_pages` pages. `reply n` is the upstream's answer to the call for page `n`
(the first page is 0): a result, or `none` when the call fails.
-/
namespace MinMcp.L4.Pages

open MinMcp.Core MinMcp.L2 MinMcp.L4.Results

/-- mirrors src/config.rs:368-391 -/
structure Paginate where
  items : String
  cursor : String
  into : String
  more : Option String
  maxPages : Nat

/-- The items of a page; a page without the array has none.
mirrors src/surface/dispatch.rs:445 -/
def pageItems (p : Paginate) (payload : Json) : List Json :=
  ((getPath payload p.items).bind Json.asArray).getD []

/-- The gate is configured and does not read `true`.
mirrors src/surface/dispatch.rs:451-456 -/
def gateClosed (p : Paginate) (payload : Json) : Bool :=
  match p.more with
  | some mf => (getPath payload mf).bind Json.asBool != some true
  | none => false

/-- The next cursor, unless it is absent, null or empty.
mirrors src/surface/dispatch.rs:457-461 -/
def nextCursor (p : Paginate) (payload : Json) : Option Json :=
  (getPath payload p.cursor).filter fun c => !c.isNull && c.asStr != some ""

/-- The loop's variables. -/
structure PageState where
  args : Json
  payload : Json
  items : List Json
  pages : Nat
  prev : Option Json

/-- How the loop ended: its variables, whether on an error, and the arguments of
every call it made. -/
structure Outcome where
  final : PageState
  partialError : Bool
  sent : List Json

/-- The cursor is the one of the page before.
mirrors src/surface/dispatch.rs:462-467 -/
def isRepeated (prev : Option Json) (cursor : Json) : Bool :=
  match prev with
  | some c => c.eqv cursor
  | none => false

/-- `n` more pages may be fetched.
mirrors src/surface/dispatch.rs:449-493 -/
def loop (p : Paginate) (fromSpec : Bool) (reply : Nat → Option Json) : Nat → PageState → Outcome
  | 0, s => ⟨s, false, []⟩
  | n + 1, s =>
    if gateClosed p s.payload then ⟨s, false, []⟩
    else match nextCursor p s.payload with
    | none => ⟨s, false, []⟩
    | some cursor =>
      if isRepeated s.prev cursor then ⟨s, false, []⟩
      else
        let args := Project.set s.args p.into cursor
        let s := { s with args := args, prev := some cursor }
        match reply s.pages with
        | none => ⟨s, true, [args]⟩
        | some next =>
          if isErrorResult next then ⟨s, true, [args]⟩
          else
            let payload := resultPayload next fromSpec
            let page := pageItems p payload
            if page = [] then ⟨s, false, [args]⟩
            else
              let out := loop p fromSpec reply n
                { s with payload := payload, items := s.items ++ page, pages := s.pages + 1 }
              { out with sent := args :: out.sent }

def start (p : Paginate) (fromSpec : Bool) (args first : Json) : PageState :=
  let payload := resultPayload first fromSpec
  ⟨args, payload, pageItems p payload, 1, none⟩

/-- The loop from the first page on.
mirrors src/surface/dispatch.rs:438-493 -/
def followUps (p : Paginate) (fromSpec : Bool) (reply : Nat → Option Json) (args first : Json) : Outcome :=
  loop p fromSpec reply (p.maxPages - 1) (start p fromSpec args first)

/-- The items of all pages take the place of the first page's, and the gate is closed.
mirrors src/surface/dispatch.rs:499-504 -/
def mergePayload (p : Paginate) (items : List Json) (payload : Json) : Json :=
  let payload := Project.set payload p.items (.arr items)
  match p.more with
  | some mf => Project.set payload mf (.bool false)
  | none => payload

/-- mirrors src/surface/dispatch.rs:509-511 -/
def notice (pages : Nat) : Json :=
  .obj [("type", .str "text"), ("text", .str (s!"PAGINATION: stopped after {pages} page(s) on an " ++
    "upstream error or timeout; the list may be incomplete."))]

/-- `blocks.push`, when the result has a list of blocks. -/
def pushBlock (result block : Json) : Json :=
  match result with
  | .obj es =>
    match es.lookup "content" with
    | some (.arr blocks) => .obj (OrderedMap.insert "content" (.arr (blocks ++ [block])) es)
    | _ => .obj es
  | v => v

/-- The merged result, and whether it is partial.
mirrors src/surface/dispatch.rs:426-515 -/
def paginate (p : Paginate) (fromSpec : Bool) (reply : Nat → Option Json) (args first : Json) :
    Json × Bool :=
  let out := followUps p fromSpec reply args first
  let merged := transformResult first fromSpec (mergePayload p out.final.items)
  (if out.partialError then pushBlock merged (notice out.final.pages) else merged, out.partialError)

theorem get_pushBlock {r block : Json} {k : String} (h : k ≠ "content") :
    (pushBlock r block).get k = r.get k := by
  cases r with
  | obj es =>
    unfold pushBlock
    simp only []
    split
    · rw [Json.get_obj, Json.get_obj, OrderedMap.lookup_insert_of_ne h]
    · rfl
  | _ => rfl

theorem get_content_pushBlock {r block : Json} {blocks : List Json}
    (h : r.get "content" = some (.arr blocks)) :
    (pushBlock r block).get "content" = some (.arr (blocks ++ [block])) := by
  cases r with
  | obj es =>
    rw [Json.get_obj] at h
    simp only [pushBlock, h, Json.get_obj, OrderedMap.lookup_insert_self]
  | _ => cases h

end MinMcp.L4.Pages
