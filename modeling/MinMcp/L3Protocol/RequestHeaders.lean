import Mathlib.Data.List.Induction

/-!
# The headers of a spec request

The executor sends its own headers, those of the upstream's configuration and those of the tool's
overlay (src/exec.rs). Names are compared without regard to case, and a name that the overlay has is
taken out of what is there by then. The configuration may not set the headers the executor sends.

* `named_requestHeaders`: of a name, the last of the overlay's is sent, or else what the upstream has.
* `each_name_once`: so no name of the overlay, and none of the reserved ones, is sent twice.
-/
namespace MinMcp.L3.RequestHeaders

abbrev Headers := List (String × List Char)

/-- `eq_ignore_ascii_case` -/
def sameName (a b : String) : Bool := a.toList.map Char.toLower = b.toList.map Char.toLower

def Headers.named (hs : Headers) (name : String) : Headers := hs.filter fun h => sameName h.1 name

def reserved : List String := ["authorization", "accept", "user-agent"]

/-- A reference that does not resolve is an error.
mirrors src/exec.rs:159-172 -/
def resolveHeaders (lowercase : String → String) (expand : List Char → Option (List Char)) (headers : Headers) :
    Option Headers :=
  (headers.filter fun h => lowercase h.1 ∉ reserved).mapM fun h => (expand h.2).map fun v => (h.1, v)

/-- mirrors src/exec.rs:139-153 -/
structure Executor where
  apiKey : List Char
  accept : Option (List Char)
  headers : Headers

/-- mirrors src/exec.rs:242-251 -/
def Executor.own (e : Executor) : Headers :=
  ("user-agent", "min-mcp".toList) ::
    ((if e.apiKey = [] then [] else [("authorization", "Bearer ".toList ++ e.apiKey)]) ++
      (e.accept.map fun a => ("accept", a)).toList)

/-- What is sent without an overlay.
mirrors src/exec.rs:242-252 -/
def Executor.base (e : Executor) : Headers := e.own ++ e.headers

/-- mirrors src/exec.rs:253-256 -/
def override (merged : Headers) (h : String × List Char) : Headers :=
  (merged.filter fun m => !sameName m.1 h.1) ++ [h]

/-- mirrors src/exec.rs:242-256 -/
def requestHeaders (e : Executor) (extra : Headers) : Headers := extra.foldl override e.base

/-! ## Names -/

theorem sameName_iff {a b : String} :
    sameName a b = true ↔ a.toList.map Char.toLower = b.toList.map Char.toLower := by
  simp [sameName]

theorem sameName_comm {a b : String} : sameName a b = sameName b a := by
  rw [Bool.eq_iff_iff, sameName_iff, sameName_iff, eq_comm]

theorem sameName_congr {a b c : String} (h : sameName a b = true) : sameName a c = sameName b c := by
  rw [sameName_iff] at h
  rw [sameName, sameName, h]

theorem named_append (hs gs : Headers) (name : String) :
    Headers.named (hs ++ gs) name = hs.named name ++ gs.named name := List.filter_append ..

theorem named_singleton (h : String × List Char) (name : String) :
    Headers.named [h] name = if sameName h.1 name then [h] else [] := by
  rw [Headers.named, List.filter_cons, List.filter_nil]

/-- One overlay header: its name is its own, and the others stay. -/
theorem named_override (merged : Headers) (h : String × List Char) (name : String) :
    (override merged h).named name = if sameName h.1 name then [h] else merged.named name := by
  rw [override, named_append, named_singleton, Headers.named, Headers.named, List.filter_filter]
  split
  · next hn =>
    rw [List.filter_eq_nil_iff.mpr, List.nil_append]
    intro m _ hm
    rw [Bool.and_eq_true, Bool.not_eq_true'] at hm
    have hsame : sameName m.1 h.1 = true := by rw [sameName_congr hm.1, sameName_comm, hn]
    exact Bool.false_ne_true (hm.2.symm.trans hsame)
  · next hn =>
    rw [List.append_nil]
    refine List.filter_congr fun m _ => ?_
    cases hm : sameName m.1 name with
    | false => rfl
    | true =>
      have hne : sameName m.1 h.1 = false := by
        rw [sameName_congr hm, sameName_comm]
        exact Bool.eq_false_iff.mpr hn
      rw [hne]
      rfl

/-- Of a name, the last of the overlay's is sent, or else what the upstream has. -/
theorem named_requestHeaders (e : Executor) (extra : Headers) (name : String) :
    (requestHeaders e extra).named name =
      match (extra.named name).getLast? with
      | some h => [h]
      | none => e.base.named name := by
  induction extra using List.reverseRecOn with
  | nil => rfl
  | append_singleton extra h ih =>
    rw [requestHeaders, List.foldl_append, List.foldl_cons, List.foldl_nil, named_override, named_append,
      named_singleton]
    split
    · rw [List.getLast?_concat]
    · rw [List.append_nil]
      exact ih

/-! ## What the executor sends itself -/

/-- What `str::to_lowercase` does to ASCII. -/
def LowersAscii (lowercase : String → String) : Prop :=
  ∀ s, (∀ c ∈ s.toList, c.toNat < 128) → lowercase s = String.ofList (s.toList.map Char.toLower)

theorem ascii_of_toLower {c : Char} (h : c.toLower.toNat < 128) : c.toNat < 128 := by
  unfold Char.toLower at h
  split at h
  · next hc =>
    have hz : 'Z'.val.toNat = 90 := by decide
    have h2 := UInt32.le_iff_toNat_le.mp hc.2
    rw [hz] at h2
    exact Nat.lt_of_le_of_lt h2 (by decide)
  · exact h

/-- A name that is one of the reserved but for case is taken for it. -/
theorem lowercase_of_sameName {lowercase : String → String} (hl : LowersAscii lowercase) {k name : String}
    (hname : name ∈ reserved) (h : sameName k name = true) : lowercase k = name := by
  have hlower : ∀ n ∈ reserved, n.toList.map Char.toLower = n.toList := by decide
  have hascii : ∀ n ∈ reserved, (n.toList.all fun c => c.toNat < 128) = true := by decide
  rw [sameName_iff, hlower name hname] at h
  rw [hl k, h, String.ofList_toList]
  intro c hc
  have hmem : c.toLower ∈ name.toList := h ▸ List.mem_map_of_mem hc
  exact ascii_of_toLower (of_decide_eq_true (List.all_eq_true.mp (hascii name hname) _ hmem))

/-- No configured header has a reserved name. -/
theorem named_resolved {lowercase : String → String} {expand : List Char → Option (List Char)} {headers hs : Headers}
    (hl : LowersAscii lowercase) (h : resolveHeaders lowercase expand headers = some hs) {name : String}
    (hname : name ∈ reserved) : hs.named name = [] := by
  refine List.filter_eq_nil_iff.mpr fun r hr hsame => ?_
  have hkeys : ∀ (l hs : Headers), (l.mapM fun h => (expand h.2).map fun v => (h.1, v)) = some hs →
      ∀ r ∈ hs, ∃ q ∈ l, q.1 = r.1 := by
    intro l
    induction l with
    | nil =>
      intro hs h r hr
      rw [List.mapM_nil, Option.pure_def, Option.some.injEq] at h
      exact absurd (h ▸ hr) List.not_mem_nil
    | cons q l ih =>
      intro hs h r hr
      simp only [List.mapM_cons, Option.bind_eq_bind, Option.bind_eq_some_iff, Option.map_eq_some_iff,
        Option.pure_def, Option.some.injEq] at h
      obtain ⟨_, ⟨v, -, rfl⟩, rest, hrest, rfl⟩ := h
      rcases List.mem_cons.mp hr with rfl | hr
      · exact ⟨q, List.mem_cons_self, rfl⟩
      · obtain ⟨q', hq', he⟩ := ih rest hrest r hr
        exact ⟨q', List.mem_cons_of_mem _ hq', he⟩
  obtain ⟨q, hq, he⟩ := hkeys _ hs h r hr
  rw [List.mem_filter, decide_eq_true_eq] at hq
  exact hq.2 (lowercase_of_sameName hl hname (he ▸ hsame) ▸ hname)

theorem named_base {lowercase : String → String} {expand : List Char → Option (List Char)} {configured : Headers}
    {e : Executor} (hl : LowersAscii lowercase) (h : resolveHeaders lowercase expand configured = some e.headers)
    {name : String} (hname : name ∈ reserved) : e.base.named name = e.own.named name := by
  rw [Executor.base, named_append, named_resolved hl h hname, List.append_nil]

theorem named_cons (h : String × List Char) (hs : Headers) (name : String) :
    Headers.named (h :: hs) name = if sameName h.1 name then h :: hs.named name else hs.named name :=
  List.filter_cons

theorem sameName_reserved : ∀ m ∈ reserved, ∀ n ∈ reserved, sameName m n = decide (m = n) := by decide

/-- The key is the one credential of the executor. -/
theorem named_authorization (e : Executor) : e.own.named "authorization" =
    if e.apiKey = [] then [] else [("authorization", "Bearer ".toList ++ e.apiKey)] := by
  have hagent : sameName "user-agent" "authorization" = false := sameName_reserved _ (by decide) _ (by decide)
  have haccept : sameName "accept" "authorization" = false := sameName_reserved _ (by decide) _ (by decide)
  have hself : sameName "authorization" "authorization" = true := sameName_reserved _ (by decide) _ (by decide)
  rw [Executor.own, named_cons, hagent, if_neg Bool.false_ne_true, named_append]
  have hnone : Headers.named (e.accept.map fun a => ("accept", a)).toList "authorization" = [] := by
    cases e.accept with
    | none => rfl
    | some a => exact (named_singleton _ _).trans (by rw [haccept]; rfl)
  rw [hnone, List.append_nil]
  split
  · rfl
  · rw [named_singleton, hself, if_pos rfl]

theorem length_named_own (e : Executor) {name : String} (hname : name ∈ reserved) :
    (e.own.named name).length ≤ 1 := by
  have hkey : (((if e.apiKey = [] then [] else [("authorization", "Bearer ".toList ++ e.apiKey)]) : Headers).map
      Prod.fst).Sublist ["authorization"] := by
    split
    · exact List.nil_sublist _
    · exact List.Sublist.refl _
  have haccept : ((e.accept.map fun a => ("accept", a)).toList.map Prod.fst).Sublist ["accept"] := by
    cases e.accept with
    | none => exact List.nil_sublist _
    | some a => exact List.Sublist.refl _
  have hnames : (e.own.map Prod.fst).Sublist ["user-agent", "authorization", "accept"] := by
    rw [Executor.own, List.map_cons, List.map_append]
    exact (hkey.append haccept).cons_cons _
  have hone : ∀ n ∈ reserved, (["user-agent", "authorization", "accept"].filter fun m => sameName m n).length ≤ 1 := by
    decide
  have hle := (hnames.filter fun m => sameName m name).length_le
  rw [List.filter_map, List.length_map] at hle
  exact Nat.le_trans hle (hone name hname)

/-- **Each name once.** Whatever the configuration and the overlay set, and in whatever case: of a name
that the overlay has, its last header is sent and nothing else; any other name is sent as the upstream
has it; and of credentials, media type and agent there is never more than one, with the upstream's own
key as the credentials unless the overlay has some. -/
theorem each_name_once {lowercase : String → String} {expand : List Char → Option (List Char)}
    {configured : Headers} {e : Executor} (hl : LowersAscii lowercase)
    (h : resolveHeaders lowercase expand configured = some e.headers) (extra : Headers) :
    (∀ g ∈ extra, ∃ last, (extra.named g.1).getLast? = some last ∧ (requestHeaders e extra).named g.1 = [last]) ∧
      (∀ name, extra.named name = [] → (requestHeaders e extra).named name = e.base.named name) ∧
      (∀ name ∈ reserved, ((requestHeaders e extra).named name).length ≤ 1) ∧
      (extra.named "authorization" = [] → (requestHeaders e extra).named "authorization" =
        if e.apiKey = [] then [] else [("authorization", "Bearer ".toList ++ e.apiKey)]) := by
  have hplain : ∀ name, extra.named name = [] → (requestHeaders e extra).named name = e.base.named name := by
    intro name hnone
    rw [named_requestHeaders, hnone]
    rfl
  refine ⟨fun g hg => ?_, hplain, fun name hname => ?_, fun hnone => ?_⟩
  · have hne : extra.named g.1 ≠ [] :=
      List.ne_nil_of_mem (List.mem_filter.mpr ⟨hg, sameName_iff.mpr rfl⟩)
    refine ⟨_, List.getLast?_eq_some_getLast hne, ?_⟩
    rw [named_requestHeaders, List.getLast?_eq_some_getLast hne]
  · rw [named_requestHeaders]
    split
    · exact Nat.le_refl 1
    · rw [named_base hl h hname]
      exact length_named_own e hname
  · rw [hplain _ hnone, named_base hl h (by decide), named_authorization]

/-- `str::to_lowercase`, as far as ASCII goes. -/
def lowerAscii (s : String) : String := String.ofList (s.toList.map Char.toLower)

def versioned : Executor := ⟨"key".toList, none, [("Api-Version", "1".toList)]⟩

/-- The configuration sets a version and tries to set the credentials. -/
theorem versioned_resolved : resolveHeaders lowerAscii some
    [("Api-Version", "1".toList), ("AUTHORIZATION", "Bearer other".toList)] = some versioned.headers := by
  decide

/-- The overlay sets the version again. -/
theorem version_once : (requestHeaders versioned [("api-version", "2".toList)]).named "api-version" =
      [("api-version", "2".toList)] ∧
    (requestHeaders versioned [("api-version", "2".toList)]).named "authorization" =
      [("authorization", "Bearer key".toList)] := by
  obtain ⟨hoverlay, -, -, hkey⟩ := each_name_once (fun _ _ => rfl) versioned_resolved [("api-version", "2".toList)]
  obtain ⟨last, hlast, hsent⟩ := hoverlay _ (List.mem_singleton_self _)
  have hgiven : Headers.named [("api-version", "2".toList)] "api-version" = [("api-version", "2".toList)] := by decide
  rw [hgiven, List.getLast?_singleton, Option.some.injEq] at hlast
  rw [← hlast] at hsent
  exact ⟨hsent, hkey (by decide)⟩

end MinMcp.L3.RequestHeaders
