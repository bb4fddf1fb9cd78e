import MinMcp.Core.LTS
import MinMcp.L3Protocol.ParamHeaders
import Mathlib.Data.List.Induction

/-!
# Which arguments a call mirrors

A modern HTTP upstream keeps, by tool name, the parameters its listing has marked
(`param_headers` of src/http_upstream.rs), and a `tools/call` mirrors the arguments found there. The
record is extended with every page of a `tools/list`, by the tools on it that have marks.

A listing is a row of pages, up to the one without a further cursor (src/upstream.rs:110-130); it
ends early when an answer fails or the request is dropped. Listings of one upstream follow each
other (src/surface/catalog.rs:281).

* `Tracks`: behind a complete listing the record holds its marks and no others.
* `safe`: the page that completes a listing completes one that marks every tool in the record.
* `headers_track`: in a run of such steps the record tracks the listing.
* `unsafe_is_stale`: any other last page leaves a stale entry.
* `unmarked_parameter_is_mirrored`: the mark of a tool is taken away.
-/
namespace MinMcp.L5.MarkedParams

open MinMcp.Core MinMcp.L3.ParamHeaders

/-- mirrors src/upstream.rs:85 -/
def listMaxPages : Nat := 1000

/-- A listing under way: the cursor asked for, the pages that have come, and the tools on them. -/
structure Listing where
  cursor : Option String
  pages : Nat
  kept : List Json
  deriving DecidableEq

structure State where
  recorded : List (String × List ParamHeader)
  listing : Option Listing
  /-- The tools of the last listing, from its last page to the next page of another one. -/
  latest : Option (List Json)
  deriving DecidableEq

def State.start : State := ⟨[], none, none⟩

inductive Label where
  | begin
  /-- The answer to a `tools/list`. -/
  | page (result : Json)
  /-- A request fails, or is dropped. -/
  | fail

/-- mirrors src/modern.rs:116-126 -/
def ensureComplete (result : Json) : Bool :=
  match (result.get "resultType").bind Json.asStr with
  | some t => t = "complete"
  | none => true

def nextCursor (result : Json) : Option String := (result.get "nextCursor").bind Json.asStr

namespace State

variable (s : State)

def begin : Option State := if s.listing = none then some { s with listing := some ⟨none, 0, []⟩ } else none

/-- The tools of the listing once the page has come. -/
def keptWith (l : Listing) (result : Json) : List Json := l.kept ++ (admitTools (pageTools result)).1

/-- The page is the listing's last. -/
def completes (l : Listing) (result : Json) : Bool :=
  nextCursor result = none || nextCursor result = l.cursor || l.pages + 1 = listMaxPages

/-- mirrors src/http_upstream.rs:420-429, src/upstream.rs:110-130 -/
def page (result : Json) : Option State :=
  match s.listing with
  | none => none
  | some l =>
    if ensureComplete result then
      let recorded := OrderedMap.extend s.recorded (admitTools (pageTools result)).2
      if completes l result then some ⟨recorded, none, some (keptWith l result)⟩
      else some ⟨recorded, some ⟨nextCursor result, l.pages + 1, keptWith l result⟩, none⟩
    else some { s with listing := none }

def fail : Option State := if s.listing = none then none else some { s with listing := none }

def step : Label → Option State
  | .begin => s.begin
  | .page result => s.page result
  | .fail => s.fail

/-- The headers a `tools/call` mirrors.
mirrors src/http_upstream.rs:221-235 -/
def mirrored (base64 : String → String) (name : String) (arguments : Json) : List (String × String) :=
  match s.recorded.lookup name with
  | some marked => paramValues base64 marked arguments
  | none => []

end State

def upstream : LTS State Label := ⟨(· = .start), State.step⟩

/-! ## What is marked -/

/-- The marks of a tool in a listing; of tools with one name the last counts. -/
def marks (kept : List Json) (name : String) : List ParamHeader :=
  (((kept.filter fun tool => toolName tool = name).getLast?).bind fun tool =>
    (toolHeaders tool).toOption).getD []

structure Tracks (s : State) : Prop where
  recorded : ∀ kept, s.latest = some kept → ∀ name,
    s.recorded.lookup name = if marks kept name = [] then none else some (marks kept name)
  mirrored : ∀ kept, s.latest = some kept → ∀ base64 name arguments,
    s.mirrored base64 name arguments = paramValues base64 (marks kept name) arguments

/-- A listing is completed only when it marks every tool that the record has, or the page brings. -/
def safe (s : State) : Label → Bool
  | .page result =>
    match s.listing with
    | some l =>
      !(ensureComplete result && State.completes l result) ||
        (s.recorded ++ (admitTools (pageTools result)).2).all fun e =>
          marks (State.keptWith l result) e.1 ≠ []
    | none => true
  | _ => true

/-- The last marks among the tools of a listing. -/
def lastMarked (kept : List Json) (name : String) : Option (List ParamHeader) :=
  (admitTools kept).2.reverse.lookup name

/-! ## The record -/

theorem admitTools_append (xs ys : List Json) :
    (admitTools (xs ++ ys)).2 = (admitTools xs).2 ++ (admitTools ys).2 := by
  simp only [admitTools, List.filterMap_append]

/-- The tools that are dropped have no marks. -/
theorem admitTools_kept (tools : List Json) : (admitTools (admitTools tools).1).2 = (admitTools tools).2 := by
  simp only [admitTools, List.filterMap_filter]
  congr 1
  funext tool
  cases toolHeaders tool <;> rfl

theorem lastMarked_append (xs ys : List Json) (name : String) :
    lastMarked (xs ++ ys) name = (lastMarked ys name).or (lastMarked xs name) := by
  rw [lastMarked, admitTools_append, List.reverse_append, List.lookup_append]
  rfl

theorem lastMarked_singleton (tool : Json) (name : String) : lastMarked [tool] name =
    match toolHeaders tool with
    | .ok (h :: hs) => if toolName tool = name then some (h :: hs) else none
    | _ => none := by
  unfold lastMarked admitTools
  split
  · next h hs hok =>
    by_cases hn : toolName tool = name
    · simp [hok, hn]
    · have hne : (name == toolName tool) = false := beq_eq_false_iff_ne.mpr (Ne.symm hn)
      simp [hok, hn, List.lookup_cons, hne]
  · next hno =>
    cases hok : toolHeaders tool with
    | error e => simp [hok]
    | ok headers =>
      cases headers with
      | nil => simp [hok]
      | cons h hs => exact absurd hok (hno h hs)

theorem marks_append_singleton (kept : List Json) (tool : Json) (name : String) :
    marks (kept ++ [tool]) name =
    if toolName tool = name then (toolHeaders tool).toOption.getD [] else marks kept name := by
  unfold marks
  rw [List.filter_append]
  by_cases hn : toolName tool = name
  · simp [hn]
  · simp [hn]

/-- A tool that is marked now was the last to be. -/
theorem lastMarked_of_marks {kept : List Json} {name : String} (h : marks kept name ≠ []) :
    lastMarked kept name = some (marks kept name) := by
  induction kept using List.reverseRecOn with
  | nil => exact absurd rfl h
  | append_singleton kept tool ih =>
    rw [marks_append_singleton] at h ⊢
    rw [lastMarked_append, lastMarked_singleton]
    by_cases hn : toolName tool = name
    · rw [if_pos hn] at h ⊢
      cases hok : toolHeaders tool with
      | error e => simp [hok, Except.toOption] at h
      | ok headers =>
        cases headers with
        | nil => simp [hok, Except.toOption] at h
        | cons p ps => simp [hn, Except.toOption]
    · rw [if_neg hn] at h ⊢
      rw [ih h]
      split
      · rw [if_neg hn]
        rfl
      · rfl

/-- What the record holds once a page has come. -/
theorem lookup_recorded (recorded : List (String × List ParamHeader)) (result : Json) (name : String) :
    (OrderedMap.extend recorded (admitTools (pageTools result)).2).lookup name =
      (lastMarked (admitTools (pageTools result)).1 name).or (recorded.lookup name) := by
  rw [OrderedMap.lookup_extend, lastMarked, admitTools_kept]

/-! ## Runs -/

section Runs

variable {s s' : State}

/-- While a listing is under way, the record has its marks. -/
def Inv (s : State) : Prop :=
  ∀ l, s.listing = some l → ∀ name h, lastMarked l.kept name = some h → s.recorded.lookup name = some h

/-- Once a page has come, the record has the marks of the listing so far. -/
theorem recorded_of_lastMarked {l : Listing} (h : Inv s) (hl : s.listing = some l) {result : Json}
    {name : String} {headers : List ParamHeader}
    (hm : lastMarked (State.keptWith l result) name = some headers) :
    (OrderedMap.extend s.recorded (admitTools (pageTools result)).2).lookup name = some headers := by
  rw [State.keptWith, lastMarked_append] at hm
  rw [lookup_recorded]
  cases hp : lastMarked (admitTools (pageTools result)).1 name with
  | some p =>
    rw [hp] at hm
    exact hm
  | none =>
    rw [hp] at hm
    exact h l hl name headers hm

theorem inv_step {l : Label} (h : Inv s) (hs : s.step l = some s') : Inv s' := by
  cases l with
  | begin =>
    simp only [State.step, State.begin] at hs
    split at hs
    · obtain rfl := Option.some.inj hs
      intro l hl name headers hm
      obtain rfl := Option.some.inj hl
      cases hm
    · cases hs
  | page result =>
    simp only [State.step, State.page] at hs
    split at hs
    · cases hs
    · next l hl =>
      split at hs
      · split at hs
        · obtain rfl := Option.some.inj hs
          intro l' hl'
          cases hl'
        · obtain rfl := Option.some.inj hs
          intro l' hl' name headers hm
          obtain rfl := Option.some.inj hl'
          exact recorded_of_lastMarked h hl hm
      · obtain rfl := Option.some.inj hs
        intro l' hl'
        cases hl'
  | fail =>
    simp only [State.step, State.fail] at hs
    split at hs
    · cases hs
    · obtain rfl := Option.some.inj hs
      intro l' hl'
      cases hl'

/-- A record that holds just the marks of a listing. -/
theorem tracks_of_recorded {recorded : List (String × List ParamHeader)} {kept : List Json}
    (h : ∀ name, recorded.lookup name = if marks kept name = [] then none else some (marks kept name)) :
    Tracks ⟨recorded, none, some kept⟩ where
  recorded kept' hk := by
    obtain rfl := Option.some.inj hk
    exact h
  mirrored kept' hk base64 name arguments := by
    obtain rfl := Option.some.inj hk
    simp only [State.mirrored, h name]
    by_cases hm : marks kept name = []
    · simp [hm, paramValues]
    · simp [hm]

/-- The page that completes a listing completes it safely exactly when the record tracks it. -/
theorem tracks_iff {l : Listing} {result : Json} (h : Inv s) (hl : s.listing = some l)
    (hok : ensureComplete result = true) (hc : State.completes l result = true) :
    Tracks ⟨OrderedMap.extend s.recorded (admitTools (pageTools result)).2, none,
      some (State.keptWith l result)⟩ ↔ safe s (.page result) = true := by
  have hsafe : safe s (.page result) = true ↔
      ∀ e ∈ s.recorded ++ (admitTools (pageTools result)).2, marks (State.keptWith l result) e.1 ≠ [] := by
    simp only [safe, hl, hok, hc, Bool.and_self, Bool.not_true, Bool.false_or, List.all_eq_true,
      decide_eq_true_eq]
  -- the names in the record
  have hkeys : ∀ name, (∃ e ∈ s.recorded ++ (admitTools (pageTools result)).2, e.1 = name) ↔
      ∃ h, (OrderedMap.extend s.recorded (admitTools (pageTools result)).2).lookup name = some h := by
    intro name
    rw [OrderedMap.lookup_extend, ← List.lookup_append, OrderedMap.lookup_isSome, OrderedMap.keys,
      List.mem_map]
    simp only [List.mem_append, List.mem_reverse, or_comm]
  rw [hsafe]
  constructor
  · intro ht e he hm
    obtain ⟨h', hlook⟩ := (hkeys e.1).mp ⟨e, he, rfl⟩
    have := ht.recorded _ rfl e.1
    rw [hm, if_pos rfl] at this
    rw [this] at hlook
    cases hlook
  · intro hall
    refine tracks_of_recorded fun name => ?_
    by_cases hm : marks (State.keptWith l result) name = []
    · rw [if_pos hm]
      by_contra hne
      obtain ⟨e, he, rfl⟩ := (hkeys name).mpr (Option.ne_none_iff_exists'.mp hne)
      exact hall e he hm
    · rw [if_neg hm]
      exact recorded_of_lastMarked h hl (lastMarked_of_marks hm)

/-- What holds of a state between steps: the record of a listing under way, and of the latest. -/
structure Good (s : State) : Prop where
  inv : Inv s
  tracks : Tracks s

theorem good_step {l : Label} (h : Good s) (hg : safe s l = true) (hs : s.step l = some s') : Good s' := by
  refine ⟨inv_step h.inv hs, ?_⟩
  cases l with
  | begin =>
    simp only [State.step, State.begin] at hs
    split at hs
    · obtain rfl := Option.some.inj hs
      exact ⟨h.tracks.recorded, h.tracks.mirrored⟩
    · cases hs
  | page result =>
    simp only [State.step, State.page] at hs
    split at hs
    · cases hs
    · next l hl =>
      split at hs
      · next hok =>
        split at hs
        · next hc =>
          obtain rfl := Option.some.inj hs
          exact (tracks_iff h.inv hl hok hc).mpr hg
        · obtain rfl := Option.some.inj hs
          exact ⟨fun kept hk => (by cases hk), fun kept hk => (by cases hk)⟩
      · obtain rfl := Option.some.inj hs
        exact ⟨h.tracks.recorded, h.tracks.mirrored⟩
  | fail =>
    simp only [State.step, State.fail] at hs
    split at hs
    · cases hs
    · obtain rfl := Option.some.inj hs
      exact ⟨h.tracks.recorded, h.tracks.mirrored⟩

end Runs

theorem invariant : upstream.Invariant (fun s l => safe s l = true) Good where
  init := by
    intro s hs
    obtain rfl : s = .start := hs
    exact ⟨fun l hl => (by cases hl), ⟨fun kept hk => (by cases hk), fun kept hk => (by cases hk)⟩⟩
  step _ _ _ h hg hs := good_step h hg hs

/-- **Mirrored parameters.** In every run in which a listing is completed only when it marks every
tool in the record, the record has the marks of the last complete listing, and a call mirrors just
the parameters that listing marks. -/
theorem headers_track {s : State} {ls : List Label}
    (hg : upstream.Guarded (fun s l => safe s l = true) .start ls) (hs : upstream.exec .start ls = some s) :
    Tracks s :=
  (invariant.exec rfl hg hs).tracks

/-- The condition is needed: any other last page leaves a record that does not track the listing. -/
theorem unsafe_is_stale {s s' : State} {l : Label} (h : Inv s) (hl : safe s l = false)
    (hs : s.step l = some s') :
    ¬ Tracks s' := by
  cases l with
  | begin | fail => simp [safe] at hl
  | page result =>
    simp only [State.step, State.page] at hs
    cases hlist : s.listing with
    | none => simp [safe, hlist] at hl
    | some l =>
      have hlast : ensureComplete result = true ∧ State.completes l result = true := by
        simp only [safe, hlist, Bool.or_eq_false_iff, Bool.not_eq_false', Bool.and_eq_true] at hl
        exact hl.1
      simp only [hlist, hlast.1, hlast.2, if_true, Option.some.injEq] at hs
      rw [← hs, tracks_iff h hlist hlast.1 hlast.2, hl]
      decide

/-! ## A mark is taken away -/

/-- A tool with the parameter `region`, marked or not. -/
def queryTool (mark : List (String × Json)) : Json :=
  .obj [("name", .str "query"), ("inputSchema", .obj [("properties", .obj
    [("region", .obj ([("type", .str "string")] ++ mark))])])]

def listingOf (tools : List Json) : List Label := [.begin, .page (.obj [("tools", .arr tools)])]

def marked (header : String) : Json := queryTool [("x-mcp-header", .str header)]

/-- The mark is changed. -/
theorem changed_mark_is_tracked : ∃ s,
    upstream.exec .start (listingOf [marked "Region"] ++ listingOf [marked "Zone"]) = some s ∧
      s.latest = some [marked "Zone"] ∧ s.recorded = [("query", [⟨["region"], "Zone"⟩])] ∧ Tracks s := by
  obtain ⟨s, hs, hrun⟩ : ∃ s,
      upstream.exec .start (listingOf [marked "Region"] ++ listingOf [marked "Zone"]) = some s ∧
      s = ⟨[("query", [⟨["region"], "Zone"⟩])], none, some [marked "Zone"]⟩ := ⟨_, by decide +kernel, rfl⟩
  exact ⟨s, hs, by rw [hrun], by rw [hrun], headers_track (by decide +kernel) hs⟩

/-- The mark is taken away, and the argument still mirrored. -/
theorem unmarked_parameter_is_mirrored : ∃ s,
    upstream.exec .start (listingOf [marked "Region"] ++ listingOf [queryTool []]) = some s ∧
      s.latest = some [queryTool []] ∧
      s.mirrored id "query" (.obj [("region", .str "us-west1")]) = [("Mcp-Param-Region", "us-west1")] ∧
      ¬ Tracks s := by
  have hs : upstream.exec .start (listingOf [marked "Region"] ++ listingOf [queryTool []]) =
      some ⟨[("query", [⟨["region"], "Region"⟩])], none, some [queryTool []]⟩ := by decide +kernel
  refine ⟨_, hs, rfl, by decide +kernel, fun h => ?_⟩
  have := h.recorded _ rfl "query"
  exact absurd this (by decide +kernel)

end MinMcp.L5.MarkedParams
