import MinMcp.L4App.ToolIds

/-!
# Filters at two levels

`passes_filter` decides for one tool, `upstream_enabled` for a whole upstream, which is
started only when some tool of it could pass (src/config.rs:1318-1341). Both read the same
patterns, the second by their text.

* `filterMatch_of_wildcard`, `referencesUpstream_iff`: what a pattern says, as its text.
* `Misses`: a tool passes, and its upstream is not started.
* `enabled_of_passes_iff`: the levels agree exactly when this is not so.
* `star_misses`: the include pattern `*`.
-/
namespace MinMcp.L4.FilterLevels

open MinMcp.Core MinMcp.L4.Catalogs MinMcp.L4.ToolIds

/-- `pattern.strip_suffix('*').unwrap_or(pattern)`. -/
def stripStar (pattern : String) : List Char :=
  match pattern.toList.getLast? with
  | some '*' => pattern.toList.dropLast
  | _ => pattern.toList

/-- mirrors src/config.rs:1388-1393 -/
def referencesUpstream (pattern upstream : String) : Bool :=
  stripStar pattern = upstream.toList || (upstream.toList ++ ['.']).isPrefixOf (stripStar pattern)

/-- mirrors src/config.rs:1395-1399 -/
def coversWholeUpstream (pattern upstream : String) : Bool :=
  pattern = upstream || pattern = upstream ++ ".*"

/-- mirrors src/config.rs:1330-1341 -/
def upstreamEnabled (f : Filters) (upstream : String) : Bool :=
  (f.includes.isEmpty || f.includes.any fun p => referencesUpstream p upstream) &&
    !f.excludes.any fun p => coversWholeUpstream p upstream

/-! ## What a pattern says -/

/-- The pattern is `start*`. -/
def Wildcard (pattern : String) (start : List Char) : Prop := pattern.toList = start ++ ['*']

/-- A wildcard that ends inside the upstream's name: `*`, or `cr*` for `crm`. -/
def CutShort (pattern upstream : String) : Prop :=
  ∃ start, Wildcard pattern start ∧ start <+: upstream.toList ∧ start ≠ upstream.toList

/-- The upstream's name, the name and a star, or the name, a dot and more. -/
def Names (pattern upstream : String) : Prop :=
  stripStar pattern = upstream.toList ∨ upstream.toList ++ ['.'] <+: pattern.toList

/-- The two kinds of tools that pass although their upstream is not started: no pattern of
the include list names the upstream, a wildcard cut short lets the tool in; or the name of
the upstream is an exclude pattern, which does not match the tool. -/
def Misses (f : Filters) (upstream id : String) : Prop :=
  (∀ p ∈ f.excludes, filterMatch p upstream id = false) ∧
    (((∃ p ∈ f.includes, CutShort p upstream) ∧ ∀ p ∈ f.includes, ¬ Names p upstream) ∨
      (upstream ∈ f.excludes ∧ (f.includes = [] ∨ ∃ p ∈ f.includes, filterMatch p upstream id = true)))

theorem stripStar_of_wildcard {pattern : String} {start : List Char} (h : Wildcard pattern start) :
    stripStar pattern = start := by
  unfold stripStar
  rw [h, List.getLast?_concat]
  exact List.dropLast_concat

theorem stripStar_cases (pattern : String) :
    Wildcard pattern (stripStar pattern) ∨
      (stripStar pattern = pattern.toList ∧ ∀ start, ¬ Wildcard pattern start) := by
  rcases List.eq_nil_or_concat pattern.toList with h | ⟨start, c, h⟩
  · refine Or.inr ⟨by simp [stripStar, h], fun start hw => ?_⟩
    rw [Wildcard, h] at hw
    exact absurd hw.symm (by simp)
  · by_cases hc : c = '*'
    · subst hc
      rw [List.concat_eq_append] at h
      exact Or.inl ((stripStar_of_wildcard h).symm ▸ h)
    · rw [List.concat_eq_append] at h
      refine Or.inr ⟨?_, fun start' hw => ?_⟩
      · unfold stripStar
        rw [h, List.getLast?_concat]
        split
        · next he => exact absurd (Option.some.inj he) hc
        · rfl
      · rw [Wildcard, h] at hw
        exact hc (List.singleton_inj.mp (List.append_inj' hw rfl).2)

theorem patternMatch_of_wildcard {pattern : String} {start : List Char} (h : Wildcard pattern start)
    (value : String) : patternMatch pattern value = true ↔ start <+: value.toList := by
  unfold patternMatch
  rw [h, List.getLast?_concat, List.dropLast_concat]
  exact List.isPrefixOf_iff_prefix

theorem patternMatch_of_plain {pattern : String} (h : ∀ start, ¬ Wildcard pattern start) (value : String) :
    patternMatch pattern value = true ↔ pattern = value := by
  unfold patternMatch
  split
  · next hl =>
    obtain ⟨start, hs⟩ := List.getLast?_eq_some_iff.mp hl
    exact absurd hs (h start)
  · exact decide_eq_true_iff

theorem filterMatch_of_wildcard {pattern : String} {start : List Char} (h : Wildcard pattern start)
    (upstream id : String) : filterMatch pattern upstream id = true ↔ start <+: id.toList := by
  have hstar : pattern.toList.contains '*' = true := by
    rw [h]
    simp
  unfold filterMatch
  rw [hstar, Bool.not_true, Bool.and_false, if_neg Bool.false_ne_true]
  exact patternMatch_of_wildcard h id

theorem referencesUpstream_iff (pattern upstream : String) :
    referencesUpstream pattern upstream = true ↔ Names pattern upstream := by
  unfold referencesUpstream Names
  rw [Bool.or_eq_true, decide_eq_true_eq, List.isPrefixOf_iff_prefix]
  refine or_congr_right ?_
  rcases stripStar_cases pattern with h | ⟨h, -⟩
  · rw [Wildcard] at h
    constructor
    · intro hp
      rw [h]
      exact hp.trans (List.prefix_append _ _)
    · intro hp
      -- the pattern ends in a star, the name and its dot do not
      rw [h, List.prefix_concat_iff] at hp
      rcases hp with he | hp
      · have hc := List.singleton_inj.mp (List.append_inj' he rfl).2
        cases hc
      · exact hp
  · rw [h]

theorem covers_matches {pattern upstream : String} (h : pattern = upstream ++ ".*") (name : String) :
    filterMatch pattern upstream (toolId upstream name) = true := by
  have hw : Wildcard pattern (upstream.toList ++ ['.']) := by
    rw [Wildcard, h, String.toList_append]
    simp
  rw [filterMatch_of_wildcard hw, toolId_toList]
  exact ⟨name.toList, by simp⟩

/-- A pattern that matches a tool names its upstream, or is a wildcard cut short. -/
theorem names_of_matches {pattern upstream name : String}
    (h : filterMatch pattern upstream (toolId upstream name) = true) :
    Names pattern upstream ∨ CutShort pattern upstream := by
  rcases stripStar_cases pattern with hw | ⟨hstrip, hplain⟩
  · rw [filterMatch_of_wildcard hw, toolId_toList] at h
    rcases List.prefix_or_prefix_of_prefix h (List.prefix_append upstream.toList _) with hs | ⟨rest, hs⟩
    · by_cases he : stripStar pattern = upstream.toList
      · exact Or.inl (Or.inl he)
      · exact Or.inr ⟨_, hw, hs, he⟩
    · left
      cases rest with
      | nil => exact Or.inl (by rw [← hs, List.append_nil])
      | cons c rest =>
        -- what comes behind the name is the dot
        rw [← hs, List.prefix_append_right_inj, List.cons_prefix_cons] at h
        rw [Wildcard, ← hs, h.1] at hw
        exact Or.inr ⟨rest ++ ['*'], by rw [hw]; simp⟩
  · unfold filterMatch at h
    left
    split at h
    · exact Or.inl (by rw [hstrip, of_decide_eq_true h])
    · rw [patternMatch_of_plain hplain] at h
      right
      rw [h, toolId_toList]
      exact ⟨name.toList, by simp⟩

theorem matches_of_cutShort {pattern upstream name : String} (h : CutShort pattern upstream) :
    filterMatch pattern upstream (toolId upstream name) = true := by
  obtain ⟨start, hw, hs, -⟩ := h
  rw [filterMatch_of_wildcard hw, toolId_toList]
  exact hs.trans (List.prefix_append _ _)

/-! ## The two levels -/

theorem passes_iff (f : Filters) (upstream id : String) :
    f.passes upstream id = true ↔
      (f.includes = [] ∨ ∃ p ∈ f.includes, filterMatch p upstream id = true) ∧
        ∀ p ∈ f.excludes, filterMatch p upstream id = false := by
  unfold Filters.passes
  simp [List.any_eq_true, List.isEmpty_iff]

theorem enabled_iff (f : Filters) (upstream : String) :
    upstreamEnabled f upstream = true ↔
      (f.includes = [] ∨ ∃ p ∈ f.includes, Names p upstream) ∧
        ∀ p ∈ f.excludes, p ≠ upstream ∧ p ≠ upstream ++ ".*" := by
  unfold upstreamEnabled coversWholeUpstream
  simp [List.any_eq_true, List.isEmpty_iff, referencesUpstream_iff]

theorem not_enabled_of_misses {f : Filters} {upstream id : String} (h : Misses f upstream id) :
    upstreamEnabled f upstream ≠ true := by
  rw [Ne, enabled_iff]
  intro ⟨hin, hex⟩
  obtain ⟨-, ⟨⟨p, hp, -⟩, hnone⟩ | ⟨hname, -⟩⟩ := h
  · rcases hin with hin | ⟨q, hq, hn⟩
    · rw [hin] at hp
      cases hp
    · exact hnone q hq hn
  · exact (hex upstream hname).1 rfl

theorem passes_of_misses {f : Filters} {upstream name : String}
    (h : Misses f upstream (toolId upstream name)) : f.passes upstream (toolId upstream name) = true := by
  rw [passes_iff]
  obtain ⟨hex, ⟨⟨p, hp, hcut⟩, -⟩ | ⟨-, hin⟩⟩ := h
  · exact ⟨Or.inr ⟨p, hp, matches_of_cutShort hcut⟩, hex⟩
  · exact ⟨hin, hex⟩

theorem misses_of_not_enabled {f : Filters} {upstream name : String}
    (hp : f.passes upstream (toolId upstream name) = true) (he : upstreamEnabled f upstream ≠ true) :
    Misses f upstream (toolId upstream name) := by
  rw [Ne, enabled_iff, not_and_or] at he
  obtain ⟨hin, hex⟩ := (passes_iff f upstream _).mp hp
  refine ⟨hex, ?_⟩
  by_cases hname : upstream ∈ f.excludes
  · exact Or.inr ⟨hname, hin⟩
  · rcases he with he | he
    · rw [not_or] at he
      obtain ⟨hne, hnone⟩ := he
      obtain ⟨p, hpin, hm⟩ := hin.resolve_left hne
      have hnone' : ∀ q ∈ f.includes, ¬ Names q upstream := fun q hq hn => hnone ⟨q, hq, hn⟩
      exact Or.inl ⟨⟨p, hpin, (names_of_matches hm).resolve_left (hnone' p hpin)⟩, hnone'⟩
    · -- `up.*` would have matched the tool
      exfalso
      apply he
      intro p hpex
      refine ⟨fun h => hname (h ▸ hpex), fun h => ?_⟩
      have := hex p hpex
      rw [covers_matches h] at this
      cases this

/-- **Two levels.** For any filters, upstream and tool: that the upstream is started if the
tool passes holds exactly when the tool is of neither kind. -/
theorem enabled_of_passes_iff (f : Filters) (upstream name : String) :
    (f.passes upstream (toolId upstream name) = true → upstreamEnabled f upstream = true) ↔
      ¬ Misses f upstream (toolId upstream name) := by
  constructor
  · intro h hm
    exact not_enabled_of_misses hm (h (passes_of_misses hm))
  · intro h hp
    by_contra he
    exact h (misses_of_not_enabled hp he)

/-- Everything is included, and nothing is started. -/
theorem star_misses :
    validate [] [commandUpstream "crm"] = .ok () ∧
      Filters.passes ⟨["*"], []⟩ "crm" (toolId "crm" "get") = true ∧
      upstreamEnabled ⟨["*"], []⟩ "crm" = false := by
  refine ⟨?_, ?_, ?_⟩
  · decide +kernel
  · decide +kernel
  · decide +kernel

end MinMcp.L4.FilterLevels
