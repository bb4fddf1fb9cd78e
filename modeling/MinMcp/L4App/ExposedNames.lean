import MinMcp.Core.FreshName
import MinMcp.L4App.Catalog

/-!
# Exposed names

In passthrough mode each tool is declared under one name: its own when no other tool
has it, else its id, both cut to the characters and the length MCP allows
(src/surface/ids.rs:5-15); a name that is taken by then gets a number behind it
(src/surface/catalog.rs:185-220).

* `freeName_spec`: the search for a number ends, at the first one from 2 on that is
  free.
* `exposed_snd`, `nodup_exposed`: one entry for each tool, no name twice.
* `exposed_of_nodup`: with different wanted names each tool gets the name it wants.
* `renaming_iff`: valid, one for each tool and the same in every order exactly when
  ids and wanted names are pairwise different and no wanted name is empty.
* `order_decides`: `a.x`, `b.x` and `c.a_x`, of which two want `a_x`.
-/
namespace MinMcp.L4.Exposed

open MinMcp.Core MinMcp.L4.Catalogs

def NameChar (c : Char) : Prop := c.isAlphanum = true ∨ c = '_' ∨ c = '-'

/-- `^[a-zA-Z0-9_-]{1,64}$` -/
def Valid (name : String) : Prop :=
  name ≠ "" ∧ name.toList.length ≤ maxNameLen ∧ ∀ c ∈ name.toList, NameChar c

/-- The names handed out for a list of tools. -/
abbrev names (tools : List ToolDef) : List (String × String) := exposedNames .passthrough tools

/-- What a passthrough client relies on. -/
structure Renaming (tools : List ToolDef) : Prop where
  /-- Behind any of the tools the search for a free name ends. -/
  ends : ∀ done t rest, tools = done ++ t :: rest → ∃ n, 2 ≤ n ∧
    FreshName.numbered (sanitizeName t.id 4) n ∉
      OrderedMap.keys (done.foldl (exposeOne (tools.map fun t => sanitizeName t.name 0)) [])
  one : ∀ t ∈ tools, ∃! name, (name, t.id) ∈ names tools
  distinct : (OrderedMap.keys (names tools)).Nodup
  valid : ∀ name ∈ OrderedMap.keys (names tools), Valid name
  stable : ∀ tools' : List ToolDef, tools'.Perm tools → ∀ e, e ∈ names tools' ↔ e ∈ names tools

/-- The name a tool has before the search for a number. -/
def wanted (bares : List String) (t : ToolDef) : String :=
  if bares.count (sanitizeName t.name 0) = 1 then sanitizeName t.name 0 else sanitizeName t.id 0

def wantedNames (tools : List ToolDef) : List String :=
  tools.map (wanted (tools.map fun t => sanitizeName t.name 0))

structure Settled (tools : List ToolDef) : Prop where
  ids : (tools.map ToolDef.id).Nodup
  nodup : (wantedNames tools).Nodup
  nonempty : "" ∉ wantedNames tools

/-! ## Sanitized names -/

theorem sanitizeName_length (id : String) (r : Nat) :
    (sanitizeName id r).toList.length ≤ maxNameLen - r := by
  unfold sanitizeName
  rw [String.toList_ofList]
  exact List.length_take_le _ _

theorem sanitizeName_chars (id : String) (r : Nat) : ∀ c ∈ (sanitizeName id r).toList, NameChar c := by
  intro c hc
  unfold sanitizeName at hc
  rw [String.toList_ofList] at hc
  obtain ⟨d, -, rfl⟩ := List.mem_map.mp (List.mem_of_mem_take hc)
  by_cases hd : d.isAlphanum || d = '_' || d = '-'
  · rw [if_pos hd]
    simpa [NameChar, or_assoc] using hd
  · rw [if_neg hd]
    exact Or.inr (Or.inl rfl)

theorem valid_sanitizeName {id : String} (h : sanitizeName id 0 ≠ "") : Valid (sanitizeName id 0) :=
  ⟨h, sanitizeName_length id 0, sanitizeName_chars id 0⟩

theorem wanted_eq (bares : List String) (t : ToolDef) : ∃ s, wanted bares t = sanitizeName s 0 := by
  unfold wanted
  split
  · exact ⟨t.name, rfl⟩
  · exact ⟨t.id, rfl⟩

theorem valid_wanted {bares : List String} {t : ToolDef} (h : wanted bares t ≠ "") :
    Valid (wanted bares t) := by
  obtain ⟨s, hs⟩ := wanted_eq bares t
  rw [hs] at h ⊢
  exact valid_sanitizeName h

/-! ## The search for a number -/

/-- The loop of the source ends: its fuel never runs out before a free name. -/
theorem freeName_spec (taken : List String) (base : String) :
    ∃ m, 2 ≤ m ∧ freeName taken base = FreshName.numbered base m ∧ FreshName.numbered base m ∉ taken ∧
      ∀ i, 2 ≤ i → i < m → FreshName.numbered base i ∈ taken := by
  obtain ⟨k, hk, hfree⟩ := FreshName.exists_free (FreshName.numbered_injective base) taken 2
  obtain ⟨name, hname⟩ := Option.isSome_iff_exists.mp
    (FreshName.search_isSome (Nat.lt_succ_of_le hk) hfree)
  obtain ⟨hnew, m, hm, -, rfl, hbelow⟩ := FreshName.search_spec hname
  exact ⟨m, hm, by rw [freeName, hname, Option.getD_some], hnew, hbelow⟩

/-! ## The entries -/

/-- The name the next tool gets. -/
def chosen (bares taken : List String) (t : ToolDef) : String :=
  if taken.contains (wanted bares t) then freeName taken (sanitizeName t.id 4)
  else wanted bares t

theorem chosen_notMem (bares taken : List String) (t : ToolDef) : chosen bares taken t ∉ taken := by
  unfold chosen
  by_cases h : taken.contains (wanted bares t) = true
  · obtain ⟨m, -, he, hm, -⟩ := freeName_spec taken (sanitizeName t.id 4)
    rw [if_pos h, he]
    exact hm
  · rw [if_neg h]
    exact fun hm => h (List.contains_iff_mem.mpr hm)

theorem chosen_of_notMem {bares taken : List String} {t : ToolDef} (h : wanted bares t ∉ taken) :
    chosen bares taken t = wanted bares t :=
  if_neg fun hc => h (List.contains_iff_mem.mp hc)

theorem exposeOne_eq (bares : List String) (exposed : List (String × String)) (t : ToolDef) :
    exposeOne bares exposed t = exposed ++ [(chosen bares (OrderedMap.keys exposed) t, t.id)] :=
  OrderedMap.insert_of_notMem _ (chosen_notMem bares _ t)

/-- What one step keeps: the entries, unique names, the ids in order. -/
theorem foldl_exposeOne (bares : List String) : ∀ (tools : List ToolDef) (exposed : List (String × String)),
    (OrderedMap.keys exposed).Nodup →
    ∃ more, tools.foldl (exposeOne bares) exposed = exposed ++ more ∧ more.map Prod.snd = tools.map ToolDef.id ∧
      (OrderedMap.keys (exposed ++ more)).Nodup
  | [], exposed, hn => ⟨[], by simp, rfl, by simpa using hn⟩
  | t :: tools, exposed, hn => by
    let e := (chosen bares (OrderedMap.keys exposed) t, t.id)
    have hn' : (OrderedMap.keys (exposed ++ [e])).Nodup := by
      rw [← exposeOne_eq]
      exact OrderedMap.nodup_insert _ _ hn
    obtain ⟨more, hm, hs, hnm⟩ := foldl_exposeOne bares tools (exposed ++ [e]) hn'
    rw [List.append_assoc] at hm hnm
    refine ⟨e :: more, ?_, by rw [List.map_cons, hs, List.map_cons], hnm⟩
    rw [List.foldl_cons, exposeOne_eq]
    exact hm

theorem exposed_snd (tools : List ToolDef) : (names tools).map Prod.snd = tools.map ToolDef.id := by
  obtain ⟨more, hm, hs, -⟩ := foldl_exposeOne (tools.map fun t => sanitizeName t.name 0) tools [] List.nodup_nil
  show (tools.foldl _ []).map Prod.snd = _
  rw [hm]
  exact hs

theorem nodup_exposed (tools : List ToolDef) : (OrderedMap.keys (names tools)).Nodup := by
  obtain ⟨more, hm, -, hn⟩ := foldl_exposeOne (tools.map fun t => sanitizeName t.name 0) tools [] List.nodup_nil
  show (OrderedMap.keys (tools.foldl _ [])).Nodup
  rw [hm]
  exact hn

/-- The first tool of the list gets the name it wants. -/
theorem first_exposed (t : ToolDef) (tools : List ToolDef) :
    (wanted ((t :: tools).map fun t => sanitizeName t.name 0) t, t.id) ∈ names (t :: tools) := by
  let bares := (t :: tools).map fun t => sanitizeName t.name 0
  have hn : (OrderedMap.keys [(wanted bares t, t.id)]).Nodup := List.nodup_singleton _
  obtain ⟨more, hm, -, -⟩ := foldl_exposeOne bares tools [(wanted bares t, t.id)] hn
  have hfirst : exposeOne bares [] t = [(wanted bares t, t.id)] := by
    rw [exposeOne_eq, OrderedMap.keys_nil, chosen_of_notMem List.not_mem_nil, List.nil_append]
  show _ ∈ (t :: tools).foldl (exposeOne bares) []
  rw [List.foldl_cons, hfirst, hm]
  exact List.mem_append_left _ List.mem_cons_self

/-- As long as no name is wanted twice, the search is never entered. -/
theorem foldl_of_nodup (bares : List String) : ∀ (tools : List ToolDef) (exposed : List (String × String)),
    (tools.map (wanted bares)).Nodup → (∀ t ∈ tools, wanted bares t ∉ OrderedMap.keys exposed) →
    tools.foldl (exposeOne bares) exposed = exposed ++ tools.map fun t => (wanted bares t, t.id)
  | [], exposed, _, _ => by simp
  | t :: tools, exposed, hn, hfree => by
    simp only [List.map_cons, List.nodup_cons] at hn
    have hfree' : ∀ t' ∈ tools, wanted bares t' ∉ OrderedMap.keys (exposed ++ [(wanted bares t, t.id)]) := by
      intro t' ht' hmem
      rw [OrderedMap.keys_append] at hmem
      rcases List.mem_append.mp hmem with hmem | hmem
      · exact hfree t' (List.mem_cons_of_mem _ ht') hmem
      · have he : wanted bares t' = wanted bares t := List.mem_singleton.mp hmem
        exact hn.1 (he ▸ List.mem_map_of_mem ht')
    rw [List.foldl_cons, exposeOne_eq, chosen_of_notMem (hfree t List.mem_cons_self),
      foldl_of_nodup bares tools _ hn.2 hfree', List.append_assoc]
    rfl

theorem exposed_of_nodup {tools : List ToolDef} (hn : (wantedNames tools).Nodup) :
    names tools = tools.map fun t => (wanted (tools.map fun t => sanitizeName t.name 0) t, t.id) :=
  foldl_of_nodup _ tools [] hn fun _ _ => List.not_mem_nil

/-! ## Another order -/

theorem wanted_of_perm {bares bares' : List String} (h : bares'.Perm bares) (t : ToolDef) :
    wanted bares' t = wanted bares t := by
  unfold wanted
  rw [h.count_eq]

theorem bares_perm {tools tools' : List ToolDef} (h : tools'.Perm tools) :
    (tools'.map fun t => sanitizeName t.name 0).Perm (tools.map fun t => sanitizeName t.name 0) := h.map _

/-- What a tool wants does not depend on the order. -/
theorem wantedNames_perm {tools tools' : List ToolDef} (h : tools'.Perm tools) :
    (wantedNames tools').Perm (wantedNames tools) := by
  unfold wantedNames
  rw [List.map_congr_left fun t _ => wanted_of_perm (bares_perm h) t]
  exact h.map _

theorem exposed_perm {tools tools' : List ToolDef} (h : tools'.Perm tools)
    (hn : (wantedNames tools).Nodup) :
    (names tools').Perm (names tools) := by
  rw [exposed_of_nodup hn, exposed_of_nodup ((wantedNames_perm h).nodup_iff.mpr hn),
    List.map_congr_left fun t _ => by rw [wanted_of_perm (bares_perm h) t]]
  exact h.map _

/-- Put first, each tool gets the name it wants; a renaming that is the same in every
order gives it that name always. -/
theorem gets_wanted {tools : List ToolDef} (h : Renaming tools) {t : ToolDef} (ht : t ∈ tools) :
    (wanted (tools.map fun t => sanitizeName t.name 0) t, t.id) ∈ names tools := by
  obtain ⟨xs, ys, rfl⟩ := List.append_of_mem ht
  have hp : (t :: (xs ++ ys)).Perm (xs ++ t :: ys) := List.perm_middle.symm
  have hfirst := first_exposed t (xs ++ ys)
  rw [wanted_of_perm (bares_perm hp)] at hfirst
  exact (h.stable _ hp _).mp hfirst

theorem settled_of_renaming {tools : List ToolDef} (h : Renaming tools) : Settled tools := by
  have hids : (tools.map ToolDef.id).Nodup := by
    rw [← exposed_snd]
    refine (List.nodup_map_iff_inj_on (List.Nodup.of_map _ (nodup_exposed tools))).mpr ?_
    intro e he e' he' hid
    have hmem : e.2 ∈ tools.map ToolDef.id := exposed_snd tools ▸ List.mem_map_of_mem he
    obtain ⟨t, ht, hte⟩ := List.mem_map.mp hmem
    have hname : e.1 = e'.1 := (h.one t ht).unique (hte ▸ he) (by rw [hte, hid]; exact he')
    exact Prod.ext hname hid
  refine ⟨hids, ?_, ?_⟩
  · refine (List.nodup_map_iff_inj_on (List.Nodup.of_map _ hids)).mpr ?_
    intro t ht t' ht' hw
    have hl := OrderedMap.lookup_of_mem (nodup_exposed tools) (gets_wanted h ht)
    have hl' := OrderedMap.lookup_of_mem (nodup_exposed tools) (gets_wanted h ht')
    rw [← hw, hl, Option.some.injEq] at hl'
    exact List.inj_on_of_nodup_map hids ht ht' hl'
  · intro hempty
    obtain ⟨t, ht, hw⟩ := List.mem_map.mp hempty
    have hkey : "" ∈ OrderedMap.keys (names tools) := hw ▸ List.mem_map_of_mem (gets_wanted h ht)
    exact (h.valid "" hkey).1 rfl

theorem renaming_of_settled {tools : List ToolDef} (h : Settled tools) : Renaming tools := by
  have he := exposed_of_nodup h.nodup
  refine ⟨?_, ?_, nodup_exposed tools, ?_, ?_⟩
  · intro done t rest _
    obtain ⟨k, -, hk⟩ := FreshName.exists_free (FreshName.numbered_injective (sanitizeName t.id 4)) _ 2
    exact ⟨2 + k, by omega, hk⟩
  · intro t ht
    refine ⟨_, he ▸ List.mem_map_of_mem ht, fun name hname => ?_⟩
    rw [he] at hname
    obtain ⟨t', ht', heq⟩ := List.mem_map.mp hname
    have hid : t'.id = t.id := congrArg Prod.snd heq
    obtain rfl : t' = t := List.inj_on_of_nodup_map h.ids ht' ht hid
    exact (congrArg Prod.fst heq).symm
  · intro name hname
    rw [he] at hname
    obtain ⟨e, hmem, rfl⟩ := List.mem_map.mp hname
    obtain ⟨t, ht, rfl⟩ := List.mem_map.mp hmem
    exact valid_wanted fun hw => h.nonempty (hw ▸ List.mem_map_of_mem ht)
  · intro tools' hp e
    exact (exposed_perm hp h.nodup).mem_iff

/-- **Renaming.** The exposed names are a valid, stable, injective renaming exactly when
ids and wanted names are pairwise different and no wanted name is empty. -/
theorem renaming_iff (tools : List ToolDef) : Renaming tools ↔ Settled tools :=
  ⟨settled_of_renaming, renaming_of_settled⟩

def listed (upstream name : String) : ToolDef :=
  toolDef upstream 0 (.obj [("name", .str name)])

/-- `a.x` and `b.x` want their ids as names, `c.a_x` its own: who comes first gets it. -/
theorem order_decides :
    ¬ Renaming [listed "a" "x", listed "b" "x", listed "c" "a_x"] ∧
      names [listed "a" "x", listed "b" "x", listed "c" "a_x"] =
        [("a_x", "a.x"), ("b_x", "b.x"), ("c_a_x_2", "c.a_x")] ∧
      names [listed "c" "a_x", listed "a" "x", listed "b" "x"] =
        [("a_x", "c.a_x"), ("a_x_2", "a.x"), ("b_x", "b.x")] := by
  refine ⟨fun h => ?_, by decide +kernel, by decide +kernel⟩
  have hd : ¬ (wantedNames [listed "a" "x", listed "b" "x", listed "c" "a_x"]).Nodup := by decide +kernel
  exact hd (settled_of_renaming h).nodup

end MinMcp.L4.Exposed
