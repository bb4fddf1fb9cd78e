import MinMcp.L4App.Lint

/-!
# The lint report

What `minmcp lint` says of a catalog (src/surface/audit.rs): how many tools break each rule, how many
none, and some of those that do. One rule is about more than one tool: an agent cannot tell tools
apart that share a summary and an HTTP method. The percentages are left out.

* `bumpAll_eq`: the counts are never asked for a rule they do not have.
* `groups_lookup`: a group has the tools of one key, in order.
* `keyOf_eq_iff`: one key is one summary and one method.
* `lint_report_tells`: what the report says is so of the catalog.
-/
namespace MinMcp.L4.LintReport

open MinMcp.Core MinMcp.Core.Text MinMcp.L4.Catalogs MinMcp.L4.Lint

/-- `origins` are the upstreams' names for a tool's operation.
mirrors src/backend.rs:188-197 -/
structure Surface where
  upstreams : List Backend
  origins : List (String → String)
  cat : Catalog
  lowercase : List Char → List Char

structure Rule where
  rule : String
  count : Nat
  why : String
  deriving DecidableEq

structure Report where
  tools : Nat
  clean : Nat
  flagged : Nat
  rules : List Rule
  sample : List (String × List String)
  deriving DecidableEq

namespace Surface

variable (x : Surface)

/-- mirrors src/surface/audit.rs:152 -/
def origin (t : ToolDef) : String := ((x.origins[t.upstreamIdx]?).map fun f => f t.name).getD ""

/-! ## Tools that are alike -/

/-- A summary, behind the HTTP method if there is one.
mirrors src/surface/audit.rs:148-156 -/
def keyOf (t : ToolDef) : Option String :=
  (confusableKey x.lowercase t.description).map fun k =>
    match httpMethod (x.origin t) with
    | some m => m ++ " " ++ String.ofList k
    | none => String.ofList k

/-- `by_desc.entry(key).or_default().push(i)` -/
def file (groups : List (String × List Nat)) (key : String) (i : Nat) : List (String × List Nat) :=
  OrderedMap.insert key ((groups.lookup key).getD [] ++ [i]) groups

/-- mirrors src/surface/audit.rs:146-159 -/
def groups : List (String × List Nat) :=
  x.cat.tools.zipIdx.foldl (fun gs e =>
    match x.keyOf e.1 with
    | some key => file gs key e.2
    | none => gs) []

/-- mirrors src/surface/audit.rs:160-161 -/
def confusable : List Nat := (x.groups.filter fun g => 1 < g.2.length).flatMap Prod.snd

/-- mirrors src/surface/audit.rs:163-169 -/
def fired (t : ToolDef) (i : Nat) : List String :=
  lint x.lowercase t.name t.description (resolvedSchema x.upstreams x.cat t) (isMutating (x.origin t)) ++
    note (i ∈ x.confusable) "confusable_descriptions"

/-! ## The counts -/

/-- `*counts.get_mut(r).unwrap() += 1`; without a count for the rule the process ends. -/
def bump (counts : List (String × Nat)) (r : String) : Option (List (String × Nat)) :=
  (counts.lookup r).map fun n => OrderedMap.insert r (n + 1) counts

structure Totals where
  counts : List (String × Nat)
  clean : Nat
  flagged : List (String × List String)

/-- mirrors src/surface/audit.rs:170-178 -/
def Totals.tool (sample : Nat) (s : Totals) (id : String) (fired : List String) : Option Totals :=
  (fired.foldlM bump s.counts).map fun counts =>
    { counts := counts
      clean := if fired = [] then s.clean + 1 else s.clean
      flagged := if fired ≠ [] ∧ s.flagged.length < sample then s.flagged ++ [(id, fired)] else s.flagged }

/-- mirrors src/surface/audit.rs:135-192 -/
def lintReport (sample : Nat) : Option Report :=
  let start : Totals := ⟨ids.map fun id => (id, 0), 0, []⟩
  (x.cat.tools.zipIdx.foldlM (fun s e => Totals.tool sample s e.1.id (x.fired e.1 e.2)) start).map fun s =>
    { tools := x.cat.tools.length
      clean := s.clean
      flagged := x.cat.tools.length - s.clean
      rules := rules.map fun r => ⟨r.1, (s.counts.lookup r.1).getD 0, r.2⟩
      sample := s.flagged }

end Surface

variable {x : Surface}

/-! ## One key, one summary and one method -/

/-- An agent cannot tell the tools apart. -/
def Alike (x : Surface) (t t' : ToolDef) : Prop :=
  (confusableKey x.lowercase t.description).isSome ∧
    confusableKey x.lowercase t.description = confusableKey x.lowercase t'.description ∧
    httpMethod (x.origin t) = httpMethod (x.origin t')

theorem mem_of_mem_intercalate {c : Char} {ws : List (List Char)} (h : c ∈ [' '].intercalate ws) :
    c = ' ' ∨ ∃ w ∈ ws, c ∈ w := by
  induction ws with
  | nil => cases h
  | cons w ws ih =>
    cases ws with
    | nil => exact Or.inr ⟨w, List.mem_cons_self, by simpa [List.intercalate] using h⟩
    | cons w' ws =>
      rw [List.intercalate_cons_cons, List.mem_append, List.mem_append, List.mem_singleton] at h
      rcases h with (h | h) | h
      · exact Or.inr ⟨w, List.mem_cons_self, h⟩
      · exact Or.inl h
      · rcases ih h with h | ⟨w'', hw, hc⟩
        · exact Or.inl h
        · exact Or.inr ⟨w'', List.mem_cons_of_mem w hw, hc⟩

theorem mem_of_mem_splitOnP {p : Char → Bool} {c : Char} {w cs : List Char} (hw : w ∈ cs.splitOnP p) (hc : c ∈ w) :
    c ∈ cs := by
  induction cs generalizing w with
  | nil =>
    rw [List.splitOnP_nil, List.mem_singleton] at hw
    rw [hw] at hc
    exact hc
  | cons d cs ih =>
    rw [List.splitOnP_cons_eq_if_modifyHead] at hw
    split at hw
    · rcases List.mem_cons.mp hw with rfl | hw
      · cases hc
      · exact List.mem_cons_of_mem d (ih hw hc)
    · cases hs : cs.splitOnP p with
      | nil => exact absurd hs (List.splitOnP_ne_nil p cs)
      | cons v vs =>
        rw [hs, List.modifyHead_cons] at hw
        rcases List.mem_cons.mp hw with rfl | hw
        · rcases List.mem_cons.mp hc with rfl | hc
          · exact List.mem_cons_self
          · exact List.mem_cons_of_mem d (ih (hs ▸ List.mem_cons_self) hc)
        · exact List.mem_cons_of_mem d (ih (hs ▸ List.mem_cons_of_mem v hw) hc)

theorem key_lower (hlower : ∀ cs, ∀ c ∈ x.lowercase cs, c.isUpper = false) {description : String} {k : List Char}
    (hk : confusableKey x.lowercase description = some k) : ∀ c ∈ k, c.isUpper = false := by
  unfold confusableKey at hk
  dsimp only at hk
  split at hk
  · obtain rfl := Option.some.inj hk
    intro c hc
    rcases mem_of_mem_intercalate hc with rfl | ⟨w, hw, hc⟩
    · decide
    · exact hlower _ c (mem_of_mem_splitOnP (List.mem_of_mem_filter hw) hc)
  · cases hk

/-- The methods are words of capitals. -/
theorem httpMethod_cases {origin m : String} (h : httpMethod origin = some m) :
    ' ' ∉ m.toList ∧ ∃ c cs, m.toList = c :: cs ∧ c.isUpper = true := by
  have hm : m ∈ httpMethods := List.mem_of_find?_eq_some h
  simp only [httpMethods, List.mem_cons, List.not_mem_nil, or_false] at hm
  rcases hm with rfl | rfl | rfl | rfl | rfl | rfl | rfl <;>
    exact ⟨by decide, _, _, rfl, by decide⟩

/-- A key without a method is no key with one, which starts with a capital. -/
theorem keyOf_eq_iff (hlower : ∀ cs, ∀ c ∈ x.lowercase cs, c.isUpper = false) {t t' : ToolDef} :
    ((x.keyOf t).isSome ∧ x.keyOf t = x.keyOf t') ↔ Alike x t t' := by
  unfold Surface.keyOf Alike
  rw [Option.isSome_map]
  cases hk : confusableKey x.lowercase t.description with
  | none => simp
  | some k =>
    cases hk' : confusableKey x.lowercase t'.description with
    | none => simp
    | some k' =>
      have hl := key_lower hlower hk
      have hl' := key_lower hlower hk'
      have happ : ∀ {m : String} {o : String} {k k' : List Char}, httpMethod o = some m →
          (∀ c ∈ k', c.isUpper = false) → m ++ " " ++ String.ofList k ≠ String.ofList k' := by
        intro m o k k' hm hk' he
        obtain ⟨-, c, cs, hc, hu⟩ := httpMethod_cases hm
        replace he := congrArg String.toList he
        simp only [String.toList_append, String.toList_ofList] at he
        have := hk' c (by rw [← he, hc]; exact List.mem_cons_self)
        rw [hu] at this
        cases this
      simp only [Option.isSome_some, Option.map_some, Option.some.injEq, true_and]
      cases hm : httpMethod (x.origin t) with
      | none =>
        cases hm' : httpMethod (x.origin t') with
        | none => simp [String.ofList_inj]
        | some m' => simpa using (happ hm' hl).symm
      | some m =>
        cases hm' : httpMethod (x.origin t') with
        | none => simpa using happ hm hl'
        | some m' =>
          simp only [Option.some.injEq]
          constructor
          · intro he
            replace he := congrArg String.toList he
            simp only [String.toList_append, String.toList_ofList, List.append_assoc] at he
            obtain ⟨h1, h2⟩ := cut_inj (httpMethod_cases hm).1 (httpMethod_cases hm').1 he
            exact ⟨h2, String.toList_inj.mp h1⟩
          · rintro ⟨rfl, rfl⟩
            rfl

/-! ## The groups -/

/-- The tools with a key, in order. -/
def sharing (x : Surface) (key : String) (es : List (ToolDef × Nat)) : List Nat :=
  (es.filter fun e => x.keyOf e.1 = some key).map Prod.snd

theorem groups_fold (es : List (ToolDef × Nat)) {gs : List (String × List Nat)} (hn : (OrderedMap.keys gs).Nodup) :
    (OrderedMap.keys (es.foldl (fun gs e =>
      match x.keyOf e.1 with
      | some key => Surface.file gs key e.2
      | none => gs) gs)).Nodup ∧
    ∀ key, ((es.foldl (fun gs e =>
      match x.keyOf e.1 with
      | some key => Surface.file gs key e.2
      | none => gs) gs).lookup key).getD [] = (gs.lookup key).getD [] ++ sharing x key es := by
  induction es generalizing gs with
  | nil => exact ⟨hn, fun key => by simp [sharing]⟩
  | cons e es ih =>
    rw [List.foldl_cons]
    cases hk : x.keyOf e.1 with
    | none =>
      refine ⟨(ih hn).1, fun key => ?_⟩
      rw [(ih hn).2 key]
      simp [sharing, hk]
    | some k =>
      have hn' : (OrderedMap.keys (Surface.file gs k e.2)).Nodup := OrderedMap.nodup_insert _ _ hn
      refine ⟨(ih hn').1, fun key => ?_⟩
      rw [(ih hn').2 key]
      by_cases hkey : key = k
      · subst hkey
        simp [sharing, hk, Surface.file, OrderedMap.lookup_insert_self]
      · have hne : k ≠ key := fun h => hkey h.symm
        simp [sharing, hk, Surface.file, OrderedMap.lookup_insert_of_ne, hkey, hne]

theorem mem_sharing {key : String} {i : Nat} :
    i ∈ sharing x key x.cat.tools.zipIdx ↔ ∃ t, x.cat.tools[i]? = some t ∧ x.keyOf t = some key := by
  unfold sharing
  simp only [List.mem_map, List.mem_filter, decide_eq_true_eq]
  constructor
  · rintro ⟨⟨t, j⟩, ⟨hm, hk⟩, rfl⟩
    exact ⟨t, List.mem_zipIdx_iff_getElem?.mp hm, hk⟩
  · rintro ⟨t, ht, hk⟩
    exact ⟨(t, i), ⟨List.mem_zipIdx_iff_getElem?.mpr ht, hk⟩, rfl⟩

theorem nodup_sharing (key : String) : (sharing x key x.cat.tools.zipIdx).Nodup := by
  have hsub : (sharing x key x.cat.tools.zipIdx).Sublist (x.cat.tools.zipIdx.map Prod.snd) :=
    (List.filter_sublist).map Prod.snd
  refine hsub.nodup ?_
  rw [List.zipIdx_map_snd]
  exact List.nodup_range'

theorem groups_lookup (x : Surface) : (OrderedMap.keys x.groups).Nodup ∧
    ∀ key, (x.groups.lookup key).getD [] = sharing x key x.cat.tools.zipIdx := by
  have h := groups_fold (x := x) x.cat.tools.zipIdx
    (show (OrderedMap.keys ([] : List (String × List Nat))).Nodup from List.nodup_nil)
  exact ⟨h.1, fun key => (h.2 key).trans (List.nil_append _)⟩

theorem mem_confusable {i : Nat} : i ∈ x.confusable ↔
    ∃ key, i ∈ sharing x key x.cat.tools.zipIdx ∧ 1 < (sharing x key x.cat.tools.zipIdx).length := by
  obtain ⟨hn, hl⟩ := groups_lookup x
  unfold Surface.confusable
  simp only [List.mem_flatMap, List.mem_filter, decide_eq_true_eq]
  constructor
  · rintro ⟨⟨key, is⟩, ⟨hm, hlen⟩, hi⟩
    have hlook := OrderedMap.lookup_of_mem hn hm
    have := hl key
    rw [hlook] at this
    exact ⟨key, this ▸ hi, this ▸ hlen⟩
  · rintro ⟨key, hi, hlen⟩
    cases hlook : x.groups.lookup key with
    | none =>
      have := hl key
      rw [hlook] at this
      rw [← this] at hi
      cases hi
    | some is =>
      have := hl key
      rw [hlook, Option.getD_some] at this
      exact ⟨(key, is), ⟨OrderedMap.mem_of_lookup hlook, this ▸ hlen⟩, this ▸ hi⟩

theorem one_lt_length_iff {is : List Nat} (hn : is.Nodup) {i : Nat} (hi : i ∈ is) :
    1 < is.length ↔ ∃ j ∈ is, j ≠ i := by
  constructor
  · intro hlen
    by_contra hnone
    have hall : ∀ j ∈ is, j = i := fun j hj => by_contra fun hne => hnone ⟨j, hj, hne⟩
    have : is.length ≤ [i].length := hn.length_le_of_subset fun j hj => List.mem_singleton.mpr (hall j hj)
    exact absurd hlen (Nat.not_lt.mpr this)
  · rintro ⟨j, hj, hne⟩
    have hpair : [j, i].Nodup := by simpa using hne
    have : [j, i].length ≤ is.length := hpair.length_le_of_subset fun k hk => by
      rcases List.mem_pair.mp hk with rfl | rfl
      · exact hj
      · exact hi
    exact this

/-- A tool is in a group of more than one exactly if another tool is like it. -/
theorem confusable_iff (hlower : ∀ cs, ∀ c ∈ x.lowercase cs, c.isUpper = false) {i : Nat} {t : ToolDef}
    (ht : x.cat.tools[i]? = some t) :
    i ∈ x.confusable ↔ ∃ j t', j ≠ i ∧ x.cat.tools[j]? = some t' ∧ Alike x t t' := by
  rw [mem_confusable]
  constructor
  · rintro ⟨key, hi, hlen⟩
    obtain ⟨j, hj, hne⟩ := (one_lt_length_iff (nodup_sharing key) hi).mp hlen
    obtain ⟨t₁, ht₁, hk⟩ := mem_sharing.mp hi
    obtain rfl := Option.some.inj (ht.symm.trans ht₁)
    obtain ⟨t', ht', hk'⟩ := mem_sharing.mp hj
    exact ⟨j, t', hne, ht', (keyOf_eq_iff hlower).mp ⟨by rw [hk]; rfl, hk.trans hk'.symm⟩⟩
  · rintro ⟨j, t', hne, ht', ha⟩
    obtain ⟨hsome, he⟩ := (keyOf_eq_iff hlower).mpr ha
    obtain ⟨key, hk⟩ := Option.isSome_iff_exists.mp hsome
    have hi : i ∈ sharing x key x.cat.tools.zipIdx := mem_sharing.mpr ⟨t, ht, hk⟩
    have hj : j ∈ sharing x key x.cat.tools.zipIdx := mem_sharing.mpr ⟨t', ht', he ▸ hk⟩
    exact ⟨key, hi, (one_lt_length_iff (nodup_sharing key) hi).mpr ⟨j, hj, hne⟩⟩

/-! ## The counts -/

theorem fired_sublist (x : Surface) (t : ToolDef) (i : Nat) : (x.fired t i).Sublist
    (poisonRules ++ ["no_description", "thin_description", "params_undescribed", "untyped_param",
      "mutating_no_required", "many_required", "deep_schema"] ++ ["confusable_descriptions"]) :=
  lint_sublist.append (note_sublist _ _)

theorem fired_nodup (x : Surface) (t : ToolDef) (i : Nat) : (x.fired t i).Nodup :=
  (fired_sublist x t i).nodup (by decide)

/-- Every rule that a tool is charged with has a count. -/
theorem fired_ids (x : Surface) (t : ToolDef) (i : Nat) : ∀ r ∈ x.fired t i, r ∈ ids := by
  have hall : ∀ r ∈ poisonRules ++ ["no_description", "thin_description", "params_undescribed", "untyped_param",
      "mutating_no_required", "many_required", "deep_schema"] ++ ["confusable_descriptions"], r ∈ ids := by decide
  exact fun r hr => hall r ((fired_sublist x t i).subset hr)

theorem lookup_counts {rs : List String} {n : String → Nat} {r : String} (hr : r ∈ rs) :
    (rs.map fun r => (r, n r)).lookup r = some (n r) := by
  induction rs with
  | nil => cases hr
  | cons r' rs ih =>
    rw [List.map_cons]
    by_cases h : r = r'
    · subst h
      simp
    · rw [OrderedMap.lookup_cons_of_ne h]
      exact ih ((List.mem_cons.mp hr).resolve_left h)

theorem insert_counts {rs : List String} (hn : rs.Nodup) {n : String → Nat} {r : String} (hr : r ∈ rs) :
    OrderedMap.insert r (n r + 1) (rs.map fun r => (r, n r)) =
      rs.map fun r' => (r', n r' + if r' = r then 1 else 0) := by
  induction rs with
  | nil => cases hr
  | cons r' rs ih =>
    obtain ⟨hnot, hn⟩ := List.nodup_cons.mp hn
    rw [List.map_cons, List.map_cons, OrderedMap.insert]
    by_cases h : r' = r
    · subst h
      rw [if_pos rfl, if_pos rfl]
      refine congrArg _ (List.map_congr_left fun s hs => ?_)
      have hne : s ≠ r' := fun he => hnot (he ▸ hs)
      rw [if_neg hne]
      rfl
    · rw [if_neg h, if_neg h, ih hn ((List.mem_cons.mp hr).resolve_left fun he => h he.symm)]
      rfl

/-- Counted are the rules that have a count, and a rule as often as it is there. -/
theorem bumpAll_eq {rs : List String} (hn : rs.Nodup) {fired : List String} (hf : ∀ r ∈ fired, r ∈ rs)
    {n : String → Nat} :
    fired.foldlM Surface.bump (rs.map fun r => (r, n r)) = some (rs.map fun r => (r, n r + fired.count r)) := by
  induction fired generalizing n with
  | nil => simp
  | cons r fired ih =>
    have hbump : Surface.bump (rs.map fun r => (r, n r)) r =
        some (rs.map fun r' => (r', n r' + if r' = r then 1 else 0)) := by
      rw [Surface.bump, lookup_counts (hf r List.mem_cons_self), Option.map_some,
        insert_counts hn (hf r List.mem_cons_self)]
    rw [List.foldlM_cons, hbump, Option.bind_eq_bind, Option.bind_some,
      ih (n := fun r' => n r' + if r' = r then 1 else 0) fun s hs => hf s (List.mem_cons_of_mem r hs)]
    refine congrArg _ (List.map_congr_left fun s _ => ?_)
    rw [List.count_cons]
    by_cases h : s = r
    · subst h
      simp only [if_true, beq_self_eq_true, Prod.mk.injEq, true_and]
      omega
    · have hb : (r == s) = false := beq_eq_false_iff_ne.mpr fun he => h he.symm
      simp [h, hb]

theorem tool_eq (x : Surface) {n : String → Nat} {s : Surface.Totals} (hs : s.counts = ids.map fun r => (r, n r))
    (sample : Nat) (t : ToolDef) (i : Nat) :
    Surface.Totals.tool sample s t.id (x.fired t i) = some
      { counts := ids.map fun r => (r, n r + if r ∈ x.fired t i then 1 else 0)
        clean := s.clean + if x.fired t i = [] then 1 else 0
        flagged := s.flagged ++
          if x.fired t i ≠ [] ∧ s.flagged.length < sample then [(t.id, x.fired t i)] else [] } := by
  rw [Surface.Totals.tool, hs, bumpAll_eq (by decide) (fired_ids x t i)]
  simp only [Option.map_some, Option.some.injEq, Surface.Totals.mk.injEq]
  refine ⟨List.map_congr_left fun r _ => ?_, ?_, ?_⟩
  · rw [(fired_nodup x t i).count]
  · split <;> rfl
  · split <;> simp

theorem totals_eq (x : Surface) (sample : Nat) (es : List (ToolDef × Nat)) {n : String → Nat} {s : Surface.Totals}
    (hs : s.counts = ids.map fun r => (r, n r)) :
    es.foldlM (fun s e => Surface.Totals.tool sample s e.1.id (x.fired e.1 e.2)) s = some
      { counts := ids.map fun r => (r, n r + es.countP fun e => r ∈ x.fired e.1 e.2)
        clean := s.clean + es.countP fun e => x.fired e.1 e.2 = []
        flagged := s.flagged ++ ((es.map fun e => (e.1.id, x.fired e.1 e.2)).filter fun f => f.2 ≠ []).take
          (sample - s.flagged.length) } := by
  induction es generalizing n s with
  | nil =>
    obtain ⟨counts, clean, flagged⟩ := s
    simp only at hs
    simp [hs]
  | cons e es ih =>
    rw [List.foldlM_cons, tool_eq x hs sample e.1 e.2, Option.bind_eq_bind, Option.bind_some,
      ih (n := fun r => n r + if r ∈ x.fired e.1 e.2 then 1 else 0) rfl]
    simp only [Option.some.injEq, Surface.Totals.mk.injEq, List.countP_cons, List.map_cons, decide_eq_true_eq]
    refine ⟨List.map_congr_left fun r _ => ?_, by omega, ?_⟩
    · simp only [Prod.mk.injEq, true_and]
      omega
    · by_cases hf : x.fired e.1 e.2 = []
      · simp [hf]
      · rw [List.filter_cons_of_pos (by simpa using hf)]
        by_cases hl : s.flagged.length < sample
        · obtain ⟨k, hk⟩ : ∃ k, sample - s.flagged.length = k + 1 := ⟨sample - s.flagged.length - 1, by omega⟩
          have hk' : sample - (s.flagged ++ [(e.1.id, x.fired e.1 e.2)]).length = k := by
            rw [List.length_append, List.length_singleton]
            omega
          rw [if_pos ⟨hf, hl⟩, hk', hk, List.take_succ_cons, List.append_assoc]
          rfl
        · have hzero : sample - s.flagged.length = 0 := by omega
          rw [if_neg (fun h => hl h.2), List.append_nil, hzero]
          simp

/-! ## The report -/

/-- The report is so of the catalog. -/
structure Tells (x : Surface) (sample : Nat) (report : Report) : Prop where
  tools : report.tools = x.cat.tools.length
  total : report.clean + report.flagged = report.tools
  clean : report.clean = x.cat.tools.zipIdx.countP fun e => x.fired e.1 e.2 = []
  rules : report.rules =
    rules.map fun r => ⟨r.1, x.cat.tools.zipIdx.countP fun e => r.1 ∈ x.fired e.1 e.2, r.2⟩
  sample : report.sample =
    ((x.cat.tools.zipIdx.map fun e => (e.1.id, x.fired e.1 e.2)).filter fun f => f.2 ≠ []).take sample
  /-- A tool is charged with what is so of its definition. -/
  charged : ∀ i t, x.cat.tools[i]? = some t → Charged x.lowercase t (resolvedSchema x.upstreams x.cat t)
    (isMutating (x.origin t)) (x.fired t i)
  confusable : ∀ i t, x.cat.tools[i]? = some t → ("confusable_descriptions" ∈ x.fired t i ↔
    ∃ j t', j ≠ i ∧ x.cat.tools[j]? = some t' ∧ Alike x t t')

theorem confusable_fired {t : ToolDef} {i : Nat} : "confusable_descriptions" ∈ x.fired t i ↔ i ∈ x.confusable := by
  have hnot : "confusable_descriptions" ∉
      lint x.lowercase t.name t.description (resolvedSchema x.upstreams x.cat t) (isMutating (x.origin t)) :=
    fun h => absurd (lint_sublist.subset h) (by decide)
  rw [Surface.fired, List.mem_append, mem_note]
  simp [hnot]

/-- Of any catalog there is a report, no tool is charged with a rule without a count, and the report
is so: it counts each tool once for each rule it breaks, as the definitions have it, at any depth of
a schema, and charges the tools alike that share a summary and a method, with no others. -/
theorem lint_report_tells (x : Surface) (hlower : ∀ cs, ∀ c ∈ x.lowercase cs, c.isUpper = false) (sample : Nat) :
    ∃ report, x.lintReport sample = some report ∧ Tells x sample report := by
  have hfold := totals_eq x sample x.cat.tools.zipIdx (n := fun _ => 0) (s := ⟨ids.map fun id => (id, 0), 0, []⟩) rfl
  have hle : x.cat.tools.zipIdx.countP (fun e => x.fired e.1 e.2 = []) ≤ x.cat.tools.length := by
    have := List.countP_le_length (p := fun e => decide (x.fired e.1 e.2 = [])) (l := x.cat.tools.zipIdx)
    rwa [List.length_zipIdx] at this
  refine ⟨_, by rw [Surface.lintReport, hfold]; rfl, ?_⟩
  refine { tools := rfl, total := ?_, clean := Nat.zero_add _, rules := ?_, sample := by simp,
           charged := fun i t _ => charged_lint t _, confusable := fun i t ht => ?_ }
  · simp only [Nat.zero_add]
    omega
  · refine List.map_congr_left fun r hr => ?_
    have hid : r.1 ∈ ids := List.mem_map_of_mem hr
    simp only [Nat.zero_add]
    rw [lookup_counts (n := fun r => x.cat.tools.zipIdx.countP fun e => r ∈ x.fired e.1 e.2) hid]
    rfl
  · rw [confusable_fired]
    exact confusable_iff hlower ht

/-! ## Three tools -/

def describedTool (idx : Nat) (name description : String) : ToolDef where
  upstreamIdx := idx
  name := name
  description := description
  inputSchema := .obj []
  id := name
  readOnly := none
  extra := []

theorem isUpper_toLower (c : Char) : c.toLower.isUpper = false := by
  have ha : 'A'.val.toNat = 65 := by decide
  have hz : 'Z'.val.toNat = 90 := by decide
  unfold Char.toLower Char.isUpper
  split
  · rename_i h
    obtain ⟨h1, h2⟩ := h
    simp only [ge_iff_le, UInt32.le_iff_toNat_le] at h1 h2
    simp only [ge_iff_le, UInt32.le_iff_toNat_le, decide_eq_false_iff_not]
    have hd : ('a'.val - 'A'.val).toNat = 32 := by decide
    have hsum : (c.val + ('a'.val - 'A'.val)).toNat = c.val.toNat + 32 := by
      rw [UInt32.toNat_add, hd]
      omega
    rw [hsum]
    omega
  · rename_i h
    simpa using h

/-- Two list the customers, in capitals or not, and one deletes them. -/
def customers : Surface where
  upstreams := []
  origins := [fun name => if name = "purge" then "DELETE /customers" else "GET /customers"]
  cat := ⟨[describedTool 0 "list" "List all customers", describedTool 0 "all" "ALL: GET /all — list ALL customers",
      describedTool 0 "purge" "List all customers"], [], [], [], [], [], [], []⟩
  lowercase cs := cs.map Char.toLower

theorem customers_report :
    customers.confusable = [0, 1] ∧ ∃ report, customers.lintReport 1 = some report ∧ Tells customers 1 report := by
  refine ⟨by decide +kernel, lint_report_tells customers (fun cs c hc => ?_) 1⟩
  obtain ⟨d, -, rfl⟩ := List.mem_map.mp hc
  exact isUpper_toLower d

end MinMcp.L4.LintReport
