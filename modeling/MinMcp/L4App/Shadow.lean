import Mathlib.Data.List.Induction

/-!
# Shadow selection

With `shadow: true` every search is also run through other rankings, which serve nothing; the tool
that is called next says how high each would have put it (src/surface/shadow.rs). One search is kept
at a time, whoever made it, and a tool counts for it once.

A ranking is a function of the query and how many ids are asked for (`Index::search`).

* `IsLast`, `Keeps`: the last search, and what is kept of it while tools are called.
* `inv_run`: that is the state of the process.
* `rows_tell_the_search`: which calls are counted, and against what, in every order of searches and
  calls.
-/
namespace MinMcp.L4.Shadow

/-- mirrors src/surface/shadow.rs:48 -/
def maxRemembered : Nat := 20

/-- mirrors src/surface/shadow.rs:51 -/
def maxQueryChars : Nat := 2000

/-- mirrors src/surface/shadow.rs:56-59 -/
structure Challenger where
  method : String
  search : String → Nat → List String

/-- mirrors src/surface/shadow.rs:62-70 -/
structure Turn where
  ranked : List (String × List String)
  served : List String
  scored : List String
  deriving DecidableEq

/-- mirrors src/surface/shadow.rs:80-85 -/
structure Observation where
  method : String
  hit : Bool
  rank : Option Nat
  deriving DecidableEq

/-- What a client does; `eligible` ids are in the catalog or are workflows'.
mirrors src/surface.rs:541-583 -/
inductive Event where
  | search (query : String) (served : List String)
  | call (toolId : String) (eligible : Bool)

section Turns

variable (challengers : List Challenger)

/-- mirrors src/surface/shadow.rs:123-125 -/
def enabled : Bool := !challengers.isEmpty

/-- mirrors src/surface/shadow.rs:130-153 -/
def observeSearch (query : String) (served : List String) : Option Turn :=
  if !enabled challengers || maxQueryChars < query.length then none
  else some
    { ranked := challengers.map fun c => (c.method, c.search query maxRemembered)
      served := served.take maxRemembered
      scored := [] }

/-- The place among the ids, the first being 1. -/
def rankIn (toolId : String) (ids : List String) : Option Nat := (ids.idxOf? toolId).map (· + 1)

def observed (toolId method : String) (ids : List String) : Observation :=
  ⟨method, (rankIn toolId ids).isSome, rankIn toolId ids⟩

/-- mirrors src/surface/shadow.rs:162-183 -/
def observeCall (turn : Option Turn) (toolId : String) (eligible : Bool) : Option Turn × List Observation :=
  match turn with
  | some t =>
    if !eligible || toolId ∈ t.scored then (turn, [])
    else (some { t with scored := toolId :: t.scored },
      observed toolId "served" t.served :: t.ranked.map fun r => observed toolId r.1 r.2)
  | none => (none, [])

/-- What is kept, and what is logged.
mirrors src/surface.rs:553-583 -/
def step (turn : Option Turn) : Event → Option Turn × List Observation
  | .search query served => (if enabled challengers then observeSearch challengers query served else turn, [])
  | .call toolId eligible => if enabled challengers then observeCall turn toolId eligible else (turn, [])

def run (events : List Event) : Option Turn := events.foldl (fun turn e => (step challengers turn e).1) none

/-! ## What is kept -/

/-- The last search, and what came after it. -/
def IsLast (events : List Event) (query : String) (served : List String) (since : List Event) : Prop :=
  (∃ before, events = before ++ .search query served :: since) ∧ ∀ q s, .search q s ∉ since

/-- What is kept of a search, whatever was called since. -/
structure Keeps (query : String) (served : List String) (since : List Event) (turn : Turn) : Prop where
  ranked : turn.ranked = challengers.map fun c => (c.method, c.search query maxRemembered)
  served : turn.served = served.take maxRemembered
  scored : ∀ toolId, toolId ∈ turn.scored ↔ .call toolId true ∈ since

/-- A search is kept that is not too long, where there are other rankings. -/
def Kept (query : String) : Prop := challengers ≠ [] ∧ query.length ≤ maxQueryChars

variable {challengers}

theorem observeSearch_some {query : String} {served : List String} {t : Turn}
    (h : observeSearch challengers query served = some t) :
    Kept challengers query ∧ Keeps challengers query served [] t := by
  unfold observeSearch at h
  split at h
  · cases h
  · rename_i hc
    obtain rfl := Option.some.inj h
    simp only [enabled, Bool.or_eq_true, Bool.not_not, decide_eq_true_eq, not_or, List.isEmpty_iff, Nat.not_lt] at hc
    exact ⟨hc, rfl, rfl, fun _ => by simp⟩

theorem observeSearch_isSome {query : String} {served : List String} (h : Kept challengers query) :
    (observeSearch challengers query served).isSome := by
  obtain ⟨hne, hlen⟩ := h
  have he : enabled challengers = true := by simpa [enabled] using hne
  have hl : decide (maxQueryChars < query.length) = false := decide_eq_false (Nat.not_lt.mpr hlen)
  simp [observeSearch, he, hl]

theorem isLast_snoc {events since : List Event} {e : Event} {query : String} {served : List String} :
    IsLast (events ++ [e]) query served since ↔
      (e = .search query served ∧ since = []) ∨
        ∃ since', since = since' ++ [e] ∧ (∀ q s, e ≠ .search q s) ∧ IsLast events query served since' := by
  constructor
  · rintro ⟨⟨before, he⟩, hno⟩
    rcases List.eq_nil_or_concat since with rfl | ⟨since', last, rfl⟩
    · left
      obtain ⟨-, hlast⟩ := List.append_inj' he rfl
      exact ⟨(List.cons.inj hlast).1, rfl⟩
    · right
      rw [List.concat_eq_append] at he hno ⊢
      have he' : events ++ [e] = (before ++ .search query served :: since') ++ [last] := by
        simpa using he
      obtain ⟨hev, hlast⟩ := List.append_inj' he' rfl
      obtain rfl := (List.cons.inj hlast).1
      exact ⟨since', rfl, fun q s heq => hno q s (by simp [heq]), ⟨before, hev⟩,
        fun q s hm => hno q s (List.mem_append_left _ hm)⟩
  · rintro (⟨rfl, rfl⟩ | ⟨since', rfl, hne, ⟨before, rfl⟩, hno⟩)
    · exact ⟨⟨events, rfl⟩, fun _ _ h => absurd h List.not_mem_nil⟩
    · refine ⟨⟨before, by simp⟩, fun q s hm => ?_⟩
      rcases List.mem_append.mp hm with hm | hm
      · exact hno q s hm
      · exact hne q s (List.mem_singleton.mp hm).symm

theorem IsLast.unique {events since since' : List Event} {q q' : String} {s s' : List String}
    (h : IsLast events q s since) (h' : IsLast events q' s' since') : q = q' ∧ s = s' ∧ since = since' := by
  induction events using List.reverseRecOn generalizing since since' with
  | nil =>
    obtain ⟨⟨before, he⟩, -⟩ := h
    exact absurd he.symm (by simp)
  | append_singleton events e ih =>
    rcases isLast_snoc.mp h with ⟨rfl, rfl⟩ | ⟨since₁, rfl, hne, hl⟩
    · rcases isLast_snoc.mp h' with ⟨he, rfl⟩ | ⟨_, -, hne, -⟩
      · obtain ⟨rfl, rfl⟩ := Event.search.inj he
        exact ⟨rfl, rfl, rfl⟩
      · exact absurd rfl (hne q s)
    · rcases isLast_snoc.mp h' with ⟨rfl, -⟩ | ⟨since₂, rfl, -, hl'⟩
      · exact absurd rfl (hne q' s')
      · obtain ⟨rfl, rfl, rfl⟩ := ih hl hl'
        exact ⟨rfl, rfl, rfl⟩

/-- The last search is kept, if it is one that is. -/
structure Inv (challengers : List Challenger) (events : List Event) (turn : Option Turn) : Prop where
  some : ∀ t, turn = some t → ∃ q s since, IsLast events q s since ∧ Kept challengers q ∧ Keeps challengers q s since t
  none : turn = none → ∀ q s since, IsLast events q s since → ¬Kept challengers q

theorem Inv.search (events : List Event) (query : String) (served : List String) :
    Inv challengers (events ++ [.search query served]) (observeSearch challengers query served) where
  some t ht := by
    obtain ⟨hk, hkeeps⟩ := observeSearch_some ht
    exact ⟨query, served, [], isLast_snoc.mpr (Or.inl ⟨rfl, rfl⟩), hk, hkeeps⟩
  none hnone q s since hl hk := by
    rcases isLast_snoc.mp hl with ⟨he, -⟩ | ⟨_, -, hne, -⟩
    · obtain ⟨rfl, rfl⟩ := Event.search.inj he
      have hsome : (observeSearch challengers query served).isSome := observeSearch_isSome hk
      rw [hnone] at hsome
      cases hsome
    · exact hne query served rfl

/-- A call changes nothing but what was called. -/
theorem Inv.call {events : List Event} {turn : Option Turn} (h : Inv challengers events turn) (toolId : String)
    (eligible : Bool) :
    Inv challengers (events ++ [.call toolId eligible]) (observeCall turn toolId eligible).1 := by
  have hlast : ∀ {q s since}, IsLast events q s since →
      IsLast (events ++ [.call toolId eligible]) q s (since ++ [.call toolId eligible]) :=
    fun hl => isLast_snoc.mpr (Or.inr ⟨_, rfl, fun _ _ => (by simp), hl⟩)
  cases turn with
  | none =>
    refine ⟨fun t ht => (by cases ht), fun _ q s since hl => ?_⟩
    rcases isLast_snoc.mp hl with ⟨he, -⟩ | ⟨_, -, -, hl⟩
    · cases he
    · exact h.none rfl q s _ hl
  | some t =>
    obtain ⟨q, s, since, hl, hk, hkeeps⟩ := h.some t rfl
    by_cases hskip : (!eligible || decide (toolId ∈ t.scored)) = true
    · refine ⟨fun t' ht => ?_, fun hn => by simp [observeCall, hskip] at hn⟩
      obtain rfl : t = t' := by simpa [observeCall, hskip] using ht
      refine ⟨q, s, _, hlast hl, hk, hkeeps.ranked, hkeeps.served, fun id => ?_⟩
      rw [hkeeps.scored, List.mem_append, List.mem_singleton]
      refine ⟨Or.inl, fun hm => hm.elim (fun hm => hm) fun he => ?_⟩
      obtain ⟨rfl, rfl⟩ := Event.call.inj he
      exact (hkeeps.scored id).mp (by simpa using hskip)
    · refine ⟨fun t' ht => ?_, fun hn => by simp [observeCall, hskip] at hn⟩
      obtain rfl : { t with scored := toolId :: t.scored } = t' := by simpa [observeCall, hskip] using ht
      obtain rfl : eligible = true := by
        cases eligible
        · exact absurd rfl hskip
        · rfl
      refine ⟨q, s, _, hlast hl, hk, hkeeps.ranked, hkeeps.served, fun id => ?_⟩
      rw [List.mem_cons, hkeeps.scored, List.mem_append, List.mem_singleton, Event.call.injEq]
      constructor
      · rintro (rfl | hm)
        · exact Or.inr ⟨rfl, rfl⟩
        · exact Or.inl hm
      · rintro (hm | ⟨rfl, -⟩)
        · exact Or.inr hm
        · exact Or.inl rfl

theorem inv_run (challengers : List Challenger) (events : List Event) :
    Inv challengers events (run challengers events) := by
  cases hen : enabled challengers with
  | false =>
    have hnil : challengers = [] := by simpa [enabled] using hen
    have hnone : ∀ events, run challengers events = none := by
      intro events
      induction events using List.reverseRecOn with
      | nil => rfl
      | append_singleton events e ih =>
        rw [run, List.foldl_append, List.foldl_cons, List.foldl_nil, ← run, ih]
        cases e <;> simp [step, hen]
    rw [hnone]
    exact ⟨fun t ht => (by cases ht), fun _ _ _ _ _ hk => hk.1 hnil⟩
  | true =>
    induction events using List.reverseRecOn with
    | nil =>
      refine ⟨fun t ht => (by cases ht), fun _ q s since hl => ?_⟩
      obtain ⟨⟨before, he⟩, -⟩ := hl
      exact absurd he.symm (by simp)
    | append_singleton events e ih =>
      rw [run, List.foldl_append, List.foldl_cons, List.foldl_nil, ← run]
      cases e with
      | search query served =>
        simp only [step, hen, if_true]
        exact Inv.search events query served
      | call toolId eligible =>
        simp only [step, hen, if_true]
        exact ih.call toolId eligible

/-- What a call logs. -/
def rows (challengers : List Challenger) (events : List Event) (toolId : String) (eligible : Bool) :
    List Observation :=
  (step challengers (run challengers events) (.call toolId eligible)).2

/-- In whatever order clients search and call: a call is counted exactly if its id is one of the
catalog's or a workflow's, the last search is kept, and the tool was not called since; and then it is
looked up in that search's ids and in each other ranking of its query. -/
theorem rows_tell_the_search (challengers : List Challenger) (events : List Event) (toolId : String)
    (eligible : Bool) :
    (rows challengers events toolId eligible ≠ [] ↔ eligible = true ∧
      ∃ q s since, IsLast events q s since ∧ Kept challengers q ∧ .call toolId true ∉ since) ∧
      ∀ q s since, IsLast events q s since → rows challengers events toolId eligible ≠ [] →
        rows challengers events toolId eligible = observed toolId "served" (s.take maxRemembered) ::
          challengers.map fun c => observed toolId c.method (c.search q maxRemembered) := by
  have hinv := inv_run challengers events
  have hrows : rows challengers events toolId eligible =
      if enabled challengers then (observeCall (run challengers events) toolId eligible).2 else [] := by
    cases hen : enabled challengers <;> simp [rows, step, hen]
  cases hturn : run challengers events with
  | none =>
    have hnil : rows challengers events toolId eligible = [] := by
      rw [hrows, hturn]
      split <;> rfl
    refine ⟨⟨fun h => absurd hnil h, ?_⟩, fun _ _ _ _ h => absurd hnil h⟩
    rintro ⟨-, q, s, since, hl, hk, -⟩
    exact absurd hk (hinv.none hturn q s since hl)
  | some t =>
    obtain ⟨q, s, since, hl, hk, hkeeps⟩ := hinv.some t hturn
    have hen : enabled challengers = true := by simpa [enabled] using hk.1
    rw [hen, if_pos rfl, hturn] at hrows
    have hiff : rows challengers events toolId eligible ≠ [] ↔ eligible = true ∧ toolId ∉ t.scored := by
      rw [hrows]
      cases eligible <;> by_cases hm : toolId ∈ t.scored <;> simp [observeCall, hm]
    refine ⟨hiff.trans (and_congr_right fun _ => ?_), fun q' s' since' hl' hne => ?_⟩
    · rw [hkeeps.scored]
      refine ⟨fun hm => ⟨q, s, since, hl, hk, hm⟩, ?_⟩
      rintro ⟨q', s', since', hl', -, hm⟩
      obtain ⟨-, -, rfl⟩ := hl.unique hl'
      exact hm
    · obtain ⟨rfl, rfl, -⟩ := hl.unique hl'
      obtain ⟨rfl, hm⟩ := hiff.mp hne
      rw [hrows]
      simp [observeCall, hm, hkeeps.ranked, hkeeps.served]

end Turns

end MinMcp.L4.Shadow
