import MinMcp.Core.Json.Places
import MinMcp.L2Machine.Prune

/-!
# The union of the selected paths

What `project` of src/project.rs leaves of a payload, place by place. A merge of two parts
of one value is the least value above both (`below_deepMerge`, `deepMerge_below`), and each
of its places comes from one of them (`origin_deepMerge`), so a projection is the least value
above what its paths select (`projection`). The order of the paths is not in that statement.

* `exact_union`: every addressed value whole, every traversed array at its length with `null`
  where nothing is selected, nothing else; neither order nor repetition of the paths matters,
  nor does projecting twice.
-/
namespace MinMcp.L2.Project

open MinMcp.Core MinMcp.Core.Json

variable {u v w a b c s x y z : Json} {ℓ : List Place}

/-! ## Merging, place by place -/

theorem deepMerge_null (b : Json) : deepMerge .null b = b := by cases b <;> rfl

/-- A merge joins the children of two containers of a kind; `null` gives way, and every
other value stays. -/
theorem deepMerge_places {P : Json → Json → Json → Prop} (null : ∀ b, P .null b b)
    (both : ∀ a b m, m.head = a.head → m.head = b.head →
      (∀ p, m.child p = Option.merge deepMerge (a.child p) (b.child p)) →
      (∀ p c d, a.child p = some c → b.child p = some d → P c d (deepMerge c d)) → P a b m)
    (left : ∀ a b, a ≠ .null → (a.head = b.head → a = b) → P a b a)
    (ha : a.WF) (hb : b.WF) : P a b (deepMerge a b) := by
  induction b using child_induction generalizing a with
  | h b ih =>
    have hboth : ∀ p c d, a.child p = some c → b.child p = some d → P c d (deepMerge c d) :=
      fun p c d hc hd => ih p d hd (wf_child ha hc) (wf_child hb hd)
    cases a with
    | null =>
      rw [deepMerge_null]
      exact null b
    | obj am =>
      cases b with
      | obj bm =>
        refine both _ _ _ rfl rfl (fun p => ?_) hboth
        cases p with
        | key k => exact lookup_mergeEntries (wf_obj.mp ha).1 (wf_obj.mp hb).1 k
        | index i => rfl
      | _ => exact left _ _ (by simp) (by simp [head])
    | arr aa =>
      cases b with
      | arr ba =>
        refine both _ _ _ rfl rfl (fun p => ?_) hboth
        cases p with
        | key k => rfl
        | index i => exact getElem?_mergeItems aa ba i
      | _ => exact left _ _ (by simp) (by simp [head])
    | _ => cases b <;> exact left _ _ (by simp) (by simp [head])

theorem below_common {p : Place} {d : Json} (hav : a.Below v) (hbv : b.Below v) (hc : a.child p = some c)
    (hd : b.child p = some d) : ∃ x, v.child p = some x ∧ c.Below x ∧ d.Below x := by
  obtain ⟨x, hx, hcx⟩ := hav.child hc
  obtain ⟨y, hy, hdy⟩ := hbv.child hd
  obtain rfl := Option.some.inj (hx.symm.trans hy)
  exact ⟨x, hx, hcx, hdy⟩

theorem below_deepMerge (ha : a.WF) (hb : b.WF) (hav : a.Below v) (hbv : b.Below v) :
    a.Below (deepMerge a b) ∧ b.Below (deepMerge a b) := by
  refine deepMerge_places (P := fun a b m => ∀ v, a.Below v → b.Below v → a.Below m ∧ b.Below m)
    ?null ?both ?left ha hb v hav hbv
  case null => exact fun b v _ _ => ⟨below_null b, below_refl b⟩
  case both =>
    intro a b m hma hmb hm ih v hav hbv
    refine ⟨below_iff.mpr ⟨Or.inr hma.symm, fun p c hc => ?_⟩,
      below_iff.mpr ⟨Or.inr hmb.symm, fun p d hd => ?_⟩⟩
    · rw [hm, hc]
      cases hd : b.child p with
      | none => exact ⟨c, rfl, below_refl c⟩
      | some d =>
        obtain ⟨x, -, hcx, hdx⟩ := below_common hav hbv hc hd
        exact ⟨_, rfl, (ih p c d hc hd x hcx hdx).1⟩
    · rw [hm, hd]
      cases hc : a.child p with
      | none => exact ⟨d, rfl, below_refl d⟩
      | some c =>
        obtain ⟨x, -, hcx, hdx⟩ := below_common hav hbv hc hd
        exact ⟨_, rfl, (ih p c d hc hd x hcx hdx).2⟩
  case left =>
    intro a b hne heq v hav hbv
    refine ⟨below_refl a, ?_⟩
    by_cases hb : b = .null
    · rw [hb]
      exact below_null a
    · rw [heq ((hav.head hne).trans (hbv.head hb).symm)]
      exact below_refl b

theorem deepMerge_below (ha : a.WF) (hb : b.WF) (hau : a.Below u) (hbu : b.Below u) :
    (deepMerge a b).Below u := by
  refine deepMerge_places (P := fun a b m => ∀ u, a.Below u → b.Below u → m.Below u)
    ?null ?both ?left ha hb u hau hbu
  case null => exact fun b u _ hb => hb
  case left => exact fun a b _ _ u ha _ => ha
  case both =>
    intro a b m hma _ hm ih u hau hbu
    refine below_iff.mpr ⟨?_, fun p z hz => ?_⟩
    · rw [← head_eq_null, hma, head_eq_null]
      exact (below_iff.mp hau).1
    · rw [hm, Option.merge_eq_some_iff] at hz
      rcases hz with ⟨hc, -⟩ | ⟨-, hd⟩ | ⟨c, d, hc, hd, rfl⟩
      · exact hau.child hc
      · exact hbu.child hd
      · obtain ⟨x, hx, hcx, hdx⟩ := below_common hau hbu hc hd
        exact ⟨x, hx, ih p c d hc hd x hcx hdx⟩

theorem origin_deepMerge (ha : a.WF) (hb : b.WF) (hz : (deepMerge a b).locate ℓ = some z) :
    ∃ y, (a.locate ℓ = some y ∨ b.locate ℓ = some y) ∧ z.head = y.head := by
  refine deepMerge_places (P := fun a b m => ∀ ℓ z, m.locate ℓ = some z →
    ∃ y, (a.locate ℓ = some y ∨ b.locate ℓ = some y) ∧ z.head = y.head) ?null ?both ?left ha hb ℓ z hz
  case null => exact fun b ℓ z hz => ⟨z, Or.inr hz, rfl⟩
  case left => exact fun a b _ _ ℓ z hz => ⟨z, Or.inl hz, rfl⟩
  case both =>
    intro a b m hma _ hm ih ℓ z hz
    cases ℓ with
    | nil =>
      obtain rfl := Option.some.inj hz
      exact ⟨a, Or.inl rfl, hma⟩
    | cons p ℓ =>
      obtain ⟨e, he, hz⟩ := locate_cons_eq_some.mp hz
      rw [hm, Option.merge_eq_some_iff] at he
      rcases he with ⟨hc, -⟩ | ⟨-, hd⟩ | ⟨c, d, hc, hd, rfl⟩
      · exact ⟨z, Or.inl ((locate_cons hc ℓ).trans hz), rfl⟩
      · exact ⟨z, Or.inr ((locate_cons hd ℓ).trans hz), rfl⟩
      · rw [locate_cons hc, locate_cons hd]
        exact ih p c d hc hd ℓ z hz

/-! ## What one path selects -/

theorem child_arr_map {f : Json → Json} {xs : List Json} {p : Place} :
    (Json.arr (xs.map f)).child p = some c ↔ ∃ x, (Json.arr xs).child p = some x ∧ f x = c := by
  cases p with
  | key k => exact iff_of_false nofun fun ⟨_, hx, _⟩ => nomatch hx
  | index i =>
    show (xs.map f)[i]? = some c ↔ ∃ x, xs[i]? = some x ∧ f x = c
    rw [List.getElem?_map, Option.map_eq_some_iff]

theorem child_obj_singleton {k : String} {p : Place} :
    (Json.obj [(k, x)]).child p = some c ↔ p = .key k ∧ x = c := by
  cases p with
  | key k' =>
    show [(k, x)].lookup k' = some c ↔ _
    by_cases hk : k' = k
    · subst hk
      simp
    · simp [OrderedMap.lookup_cons_of_ne hk, hk]
  | index i => exact iff_of_false nofun fun ⟨h, _⟩ => nomatch h

theorem below_selectPath {segs : List String} (hs : selectPath v segs = some s) : s.Below v := by
  refine selectPath_induct (P := fun v _ s => s.Below v) ?here ?each ?key hs
  case here => exact below_refl
  case each =>
    intro xs rest ih
    refine below_iff.mpr ⟨Or.inr rfl, fun p c hc => ?_⟩
    obtain ⟨x, hx, rfl⟩ := child_arr_map.mp hc
    refine ⟨x, hx, ?_⟩
    cases hsel : selectPath x rest with
    | none => exact below_null x
    | some t => exact ih x (mem_of_child hx) t hsel
  case key =>
    intro es seg rest c sub _ hc _ ih
    refine below_iff.mpr ⟨Or.inr rfl, fun p d hd => ?_⟩
    obtain ⟨rfl, rfl⟩ := child_obj_singleton.mp hd
    exact ⟨c, hc, ih⟩

/-- A path that leads somewhere leads there in every part that keeps what it selects. -/
theorem selectPath_mono {segs : List String} (hs : selectPath v segs = some s) (hsw : s.Below w)
    (hwv : w.Below v) : ∃ t, selectPath w segs = some t ∧ s.Below t := by
  refine selectPath_induct
    (P := fun v segs s => ∀ w, s.Below w → w.Below v → ∃ t, selectPath w segs = some t ∧ s.Below t)
    ?here ?each ?key hs w hsw hwv
  case here => exact fun v w hvw _ => ⟨w, rfl, hvw⟩
  case each =>
    intro xs rest ih w hsw hwv
    obtain ⟨ys, rfl⟩ := head_eq_arr (hsw.head (by simp)).symm
    refine ⟨.arr (ys.map fun e => (selectPath e rest).getD .null), by rw [selectPath, if_pos rfl]; rfl, ?_⟩
    refine below_iff.mpr ⟨Or.inr rfl, fun p c hc => ?_⟩
    obtain ⟨y, hy, hcy⟩ := hsw.child hc
    obtain ⟨x, hx, rfl⟩ := child_arr_map.mp hc
    refine ⟨_, child_arr_map.mpr ⟨y, hy, rfl⟩, ?_⟩
    obtain ⟨x', hx', hyx⟩ := hwv.child hy
    obtain rfl := Option.some.inj (hx.symm.trans hx')
    cases hsel : selectPath x rest with
    | none => exact below_null _
    | some t =>
      rw [hsel] at hcy
      obtain ⟨t', ht', htt'⟩ := ih x (mem_of_child hx) t hsel y hcy hyx
      rw [ht']
      exact htt'
  case key =>
    intro es seg rest c sub hseg hc _ ih w hsw hwv
    obtain ⟨d, hd, hsd⟩ := hsw.child (child_obj_singleton.mpr ⟨rfl, rfl⟩)
    obtain ⟨c', hc', hdc⟩ := hwv.child hd
    obtain rfl := Option.some.inj (hc'.symm.trans hc)
    obtain ⟨t, ht, hst⟩ := ih d hsd hdc
    obtain ⟨fs, rfl⟩ := head_eq_obj (hsw.head (by simp)).symm
    have hd : fs.lookup seg = some d := hd
    refine ⟨.obj [(seg, t)], ?_, ?_⟩
    · rw [selectPath, if_neg hseg, get_obj, hd, Option.bind_some, ht, Option.map_some]
    · refine below_iff.mpr ⟨Or.inr rfl, fun p e he => ?_⟩
      obtain ⟨rfl, rfl⟩ := child_obj_singleton.mp he
      exact ⟨t, child_obj_singleton.mpr ⟨rfl, rfl⟩, hst⟩

/-! ## A projection as the least upper bound -/

/-- What the paths of a list select, one by one. -/
def Selection (v : Json) (paths : List String) (s : Json) : Prop :=
  ∃ p ∈ paths, selectPath v (parsePath p) = some s

theorem Selection.below {paths : List String} (h : Selection v paths s) : s.Below v := by
  obtain ⟨p, -, hs⟩ := h
  exact below_selectPath hs

/-- The least value above all selections, and nothing but places of theirs. -/
structure Least (S : Json → Prop) (w : Json) : Prop where
  upper : ∀ s, S s → s.Below w
  least : ∀ u, (∀ s, S s → s.Below u) → w.Below u
  origin : ∀ ℓ z, w.locate ℓ = some z →
    (ℓ = [] ∧ z = .null) ∨ ∃ s y, S s ∧ s.locate ℓ = some y ∧ z.head = y.head

theorem project_concat (v : Json) (paths : List String) (p : String) :
    project v (paths ++ [p]) =
      match selectPath v (parsePath p) with
      | some sel => deepMerge (project v paths) sel
      | none => project v paths := by
  rw [project, List.foldl_append]
  rfl

/-- By the paths from the first to the last. -/
theorem projection (hv : v.WF) (paths : List String) : Least (Selection v paths) (project v paths) := by
  induction paths using List.reverseRecOn with
  | nil =>
    refine ⟨fun s ⟨p, hp, _⟩ => absurd hp List.not_mem_nil, fun u _ => below_null u, fun ℓ z hz => ?_⟩
    cases ℓ with
    | nil => exact Or.inl ⟨rfl, (Option.some.inj hz).symm⟩
    | cons p ℓ =>
      obtain ⟨c, hc, -⟩ := locate_cons_eq_some.mp hz
      cases p <;> cases hc
  | append_singleton paths p ih =>
    have hmem : ∀ s, Selection v (paths ++ [p]) s ↔
        Selection v paths s ∨ selectPath v (parsePath p) = some s := by
      intro s
      simp [Selection, or_and_right, exists_or]
    rw [project_concat]
    cases hs : selectPath v (parsePath p) with
    | none =>
      have hsame : ∀ s, Selection v (paths ++ [p]) s ↔ Selection v paths s := by
        intro s
        rw [hmem, hs, or_iff_left (by simp)]
      rw [show Selection v (paths ++ [p]) = Selection v paths from funext fun s => propext (hsame s)]
      exact ih
    | some t =>
      have hacc : (project v paths).WF := wf_project hv paths
      have ht : t.WF := wf_selectPath hv hs
      have hub := below_deepMerge hacc ht (ih.least v fun s hs => hs.below) (below_selectPath hs)
      refine ⟨fun s h => ?_, fun u hu => ?_, fun ℓ z hz => ?_⟩
      · rcases (hmem s).mp h with h | h
        · exact (ih.upper s h).trans hub.1
        · obtain rfl := Option.some.inj (hs.symm.trans h)
          exact hub.2
      · refine deepMerge_below hacc ht (ih.least u fun s h => hu s ((hmem s).mpr (Or.inl h))) ?_
        exact hu t ((hmem t).mpr (Or.inr hs))
      · obtain ⟨y, hy | hy, hzy⟩ := origin_deepMerge hacc ht hz
        · rcases ih.origin ℓ y hy with ⟨rfl, rfl⟩ | ⟨s, x, h, hx, hyx⟩
          · exact Or.inl ⟨rfl, head_eq_null.mp hzy⟩
          · exact Or.inr ⟨s, x, (hmem s).mpr (Or.inl h), hx, hzy.trans hyx⟩
        · exact Or.inr ⟨t, y, (hmem t).mpr (Or.inr hs), hy, hzy⟩

theorem project_below (hv : v.WF) (paths : List String) : (project v paths).Below v :=
  (projection hv paths).least v fun _ hs => hs.below

theorem eqv_project_of_mem {paths paths' : List String} (hv : v.WF) (h : ∀ p, p ∈ paths' ↔ p ∈ paths) :
    (project v paths').eqv (project v paths) = true := by
  rw [eqv_iff_below (wf_project hv _) (wf_project hv _)]
  constructor
  · refine (projection hv paths').least _ fun s ⟨p, hp, hs⟩ => ?_
    exact (projection hv paths).upper s ⟨p, (h p).mp hp, hs⟩
  · refine (projection hv paths).least _ fun s ⟨p, hp, hs⟩ => ?_
    exact (projection hv paths').upper s ⟨p, (h p).mpr hp, hs⟩

theorem eqv_project_project (hv : v.WF) (paths : List String) :
    (project (project v paths) paths).eqv (project v paths) = true := by
  have hw := wf_project hv paths
  rw [eqv_iff_below (wf_project hw paths) hw]
  refine ⟨project_below hw paths, (projection hv paths).least _ fun s ⟨p, hp, hs⟩ => ?_⟩
  have hsw := (projection hv paths).upper s ⟨p, hp, hs⟩
  obtain ⟨t, ht, hst⟩ := selectPath_mono hs hsw (project_below hv paths)
  exact hst.trans ((projection hw paths).upper t ⟨p, hp, ht⟩)

/-! ## The union of the addressed places -/

/-- A step goes to the place with its key, or to every element. -/
inductive Goes : Step → Place → Prop
  | key (k : String) : Goes (.key k) (.key k)
  | each (i : Nat) : Goes .each (.index i)

/-- The path addresses the place. -/
def Matches (q : List Step) (ℓ : List Place) : Prop := List.Forall₂ Goes q ℓ

/-- The path leads on from `v`, to a value or to an array whose elements it goes into. -/
def Reaches : Json → List Step → Prop
  | _, [] => True
  | v, .key k :: q => ∃ c, v.child (.key k) = some c ∧ Reaches c q
  | v, .each :: _ => ∃ xs, v = .arr xs

/-- A place within a value that the path addresses. -/
def Inside (q : List Step) (ℓ : List Place) : Prop := ∃ ℓ₀, ℓ₀ <+: ℓ ∧ Matches q ℓ₀

/-- A place of `v` that the path goes through, and leads on from there. -/
def Passes (v : Json) (q : List Step) (ℓ : List Place) : Prop :=
  ∃ q₁ q₂ x, q = q₁ ++ q₂ ∧ Matches q₁ ℓ ∧ v.locate ℓ = some x ∧ Reaches x q₂

/-- An element of an array that the path goes through. -/
def Element (q : List Step) (ℓ : List Place) : Prop :=
  ∃ q₁ q₂ ℓ₀ i, q = q₁ ++ .each :: q₂ ∧ Matches q₁ ℓ₀ ∧ ℓ = ℓ₀ ++ [.index i]

/-- `w` is the part of `v` that the paths of `Q` address. -/
structure ExactUnion (v w : Json) (Q : List (List Step)) : Prop where
  whole : ∀ q ∈ Q, ∀ ℓ x, Matches q ℓ → v.locate ℓ = some x →
    ∃ y, w.locate ℓ = some y ∧ y.eqv x = true
  arrays : ∀ q₁ q₂, q₁ ++ .each :: q₂ ∈ Q → ∀ ℓ xs, Matches q₁ ℓ → v.locate ℓ = some (.arr xs) →
    ∃ ys, w.locate ℓ = some (.arr ys) ∧ ys.length = xs.length ∧
      ∀ i < xs.length, (∀ q ∈ Q, ¬ Inside q (ℓ ++ [.index i]) ∧ ¬ Passes v q (ℓ ++ [.index i])) →
        ys[i]? = some .null
  inPlace : w.Below v
  nothingElse : ∀ ℓ y, w.locate ℓ = some y →
    (∃ q ∈ Q, Inside q ℓ ∨ Passes v q ℓ) ∨ y = .null ∧ (ℓ = [] ∨ ∃ q ∈ Q, Element q ℓ)

theorem goes_stepOf {seg : String} {p : Place} (h : Goes (stepOf seg) p) :
    (seg = "[]" ∧ ∃ i, p = .index i) ∨ seg ≠ "[]" ∧ p = .key seg := by
  by_cases hs : seg = "[]"
  · rw [stepOf, if_pos hs] at h
    cases h with
    | each i => exact Or.inl ⟨hs, i, rfl⟩
  · rw [stepOf_key hs] at h
    cases h with
    | key k => exact Or.inr ⟨hs, rfl⟩

theorem goes_key {seg : String} (h : seg ≠ "[]") : Goes (stepOf seg) (.key seg) := by
  rw [stepOf_key h]
  exact .key seg

theorem selectPath_arr (xs : List Json) (rest : List String) :
    selectPath (.arr xs) ("[]" :: rest) =
      some (.arr (xs.map fun e => (selectPath e rest).getD .null)) := by
  rw [selectPath, if_pos rfl]
  rfl

theorem selectPath_obj {es : List (String × Json)} {seg : String} (h : seg ≠ "[]")
    (hc : es.lookup seg = some c) (rest : List String) :
    selectPath (.obj es) (seg :: rest) = (selectPath c rest).map fun sub => .obj [(seg, sub)] := by
  rw [selectPath, if_neg h, get_obj, hc, Option.bind_some]

/-- What a path selects it selects at its place. -/
theorem locate_selectPath {segs₁ segs₂ : List String} (hm : Matches (segs₁.map stepOf) ℓ)
    (hx : v.locate ℓ = some x) (ht : selectPath x segs₂ = some y) :
    ∃ s, selectPath v (segs₁ ++ segs₂) = some s ∧ s.locate ℓ = some y := by
  induction segs₁ generalizing v ℓ with
  | nil =>
    cases hm
    obtain rfl := Option.some.inj hx
    exact ⟨y, ht, rfl⟩
  | cons seg segs₁ ih =>
    cases hm with
    | @cons _ p _ ℓ hg hm =>
      obtain ⟨c, hc, hx⟩ := locate_cons_eq_some.mp hx
      obtain ⟨s, hs, hy⟩ := ih hm hx
      rcases goes_stepOf hg with ⟨rfl, i, rfl⟩ | ⟨hseg, rfl⟩
      · cases v with
        | arr xs =>
          refine ⟨_, selectPath_arr xs (segs₁ ++ segs₂), ?_⟩
          have hch := child_arr_map (f := fun e => (selectPath e (segs₁ ++ segs₂)).getD .null).mpr
            ⟨c, hc, rfl⟩
          rw [locate_cons hch, hs]
          exact hy
        | _ => cases hc
      · cases v with
        | obj es =>
          refine ⟨.obj [(seg, s)], ?_, ?_⟩
          · rw [List.cons_append, selectPath_obj hseg hc, hs, Option.map_some]
          · rw [locate_cons (child_obj_singleton.mpr ⟨rfl, rfl⟩)]
            exact hy
        | _ => cases hc

theorem reaches_of_selectPath {segs : List String} (hs : selectPath v segs = some s) :
    Reaches v (segs.map stepOf) := by
  refine selectPath_induct (P := fun v segs _ => Reaches v (segs.map stepOf)) ?here ?each ?key hs
  case here => exact fun _ => trivial
  case each => exact fun xs _ _ => ⟨xs, rfl⟩
  case key =>
    intro es seg rest c sub hseg hc _ ih
    rw [List.map_cons, stepOf_key hseg]
    exact ⟨c, hc, ih⟩

theorem Inside.cons {st : Step} {q : List Step} {p : Place} (hg : Goes st p) (h : Inside q ℓ) :
    Inside (st :: q) (p :: ℓ) := by
  obtain ⟨ℓ₀, hp, hm⟩ := h
  exact ⟨p :: ℓ₀, List.cons_prefix_cons.mpr ⟨rfl, hp⟩, hm.cons hg⟩

theorem Passes.cons {st : Step} {q : List Step} {p : Place} (hg : Goes st p) (hc : v.child p = some c)
    (h : Passes c q ℓ) : Passes v (st :: q) (p :: ℓ) := by
  obtain ⟨q₁, q₂, x, rfl, hm, hx, hr⟩ := h
  exact ⟨st :: q₁, q₂, x, rfl, hm.cons hg, (locate_cons hc ℓ).trans hx, hr⟩

theorem Element.cons {st : Step} {q : List Step} {p : Place} (hg : Goes st p) (h : Element q ℓ) :
    Element (st :: q) (p :: ℓ) := by
  obtain ⟨q₁, q₂, ℓ₀, i, rfl, hm, rfl⟩ := h
  exact ⟨st :: q₁, q₂, p :: ℓ₀, i, rfl, hm.cons hg, rfl⟩

/-- The places of what a path selects. -/
theorem places_selectPath {segs : List String} (hs : selectPath v segs = some s)
    (hy : s.locate ℓ = some y) :
    (Inside (segs.map stepOf) ℓ ∨ Passes v (segs.map stepOf) ℓ) ∨
      y = .null ∧ Element (segs.map stepOf) ℓ := by
  refine selectPath_induct (P := fun v segs s => selectPath v segs = some s → ∀ ℓ y, s.locate ℓ = some y →
    (Inside (segs.map stepOf) ℓ ∨ Passes v (segs.map stepOf) ℓ) ∨ y = .null ∧ Element (segs.map stepOf) ℓ)
    ?here ?each ?key hs hs ℓ y hy
  case here => exact fun v _ ℓ y _ => Or.inl (Or.inl ⟨[], List.nil_prefix, .nil⟩)
  case each =>
    intro xs rest ih hs ℓ y hy
    cases ℓ with
    | nil => exact Or.inl (Or.inr ⟨[], _, _, rfl, .nil, rfl, reaches_of_selectPath hs⟩)
    | cons p ℓ =>
      obtain ⟨c, hc, hyc⟩ := locate_cons_eq_some.mp hy
      obtain ⟨x, hx, rfl⟩ := child_arr_map.mp hc
      obtain ⟨i, rfl⟩ : ∃ i, p = .index i := by
        cases p with
        | key k => cases hx
        | index i => exact ⟨i, rfl⟩
      cases hsel : selectPath x rest with
      | none =>
        rw [hsel] at hyc
        obtain ⟨rfl, rfl⟩ := locate_null.mp hyc
        exact Or.inr ⟨rfl, [], _, [], i, rfl, .nil, rfl⟩
      | some t =>
        rw [hsel] at hyc
        rcases ih x (mem_of_child hx) t hsel hsel ℓ y hyc with (h | h) | ⟨h0, h⟩
        · exact Or.inl (Or.inl (h.cons (.each i)))
        · exact Or.inl (Or.inr (h.cons (.each i) hx))
        · exact Or.inr ⟨h0, h.cons (.each i)⟩
  case key =>
    intro es seg rest c sub hseg hc hsub ih hs ℓ y hy
    cases ℓ with
    | nil => exact Or.inl (Or.inr ⟨[], _, _, rfl, .nil, rfl, reaches_of_selectPath hs⟩)
    | cons p ℓ =>
      obtain ⟨d, hd, hyd⟩ := locate_cons_eq_some.mp hy
      obtain ⟨rfl, rfl⟩ := child_obj_singleton.mp hd
      rcases ih hsub ℓ y hyd with (h | h) | ⟨h0, h⟩
      · exact Or.inl (Or.inl (h.cons (goes_key hseg)))
      · exact Or.inl (Or.inr (h.cons (goes_key hseg) hc))
      · exact Or.inr ⟨h0, h.cons (goes_key hseg)⟩

/-- A part of what a path selects is a part of the projection, and that of the value there. -/
theorem locate_project (hv : v.WF) {paths : List String} (hs : Selection v paths s)
    (hz : s.locate ℓ = some z) (hx : v.locate ℓ = some x) :
    ∃ y, (project v paths).locate ℓ = some y ∧ z.Below y ∧ y.Below x := by
  obtain ⟨y, hy, hzy⟩ := ((projection hv paths).upper s hs).locate hz
  obtain ⟨x', hx', hyx⟩ := (project_below hv paths).locate hy
  obtain rfl := Option.some.inj (hx.symm.trans hx')
  exact ⟨y, hy, hzy, hyx⟩

theorem whole_project (hv : v.WF) {paths : List String} {p : String} (hp : p ∈ paths)
    (hm : Matches ((parsePath p).map stepOf) ℓ) (hx : v.locate ℓ = some x) :
    ∃ y, (project v paths).locate ℓ = some y ∧ y.eqv x = true := by
  have hend : selectPath x [] = some x := rfl
  obtain ⟨s, hs, hsx⟩ := locate_selectPath hm hx hend
  rw [List.append_nil] at hs
  obtain ⟨y, hy, hxy, hyx⟩ := locate_project hv ⟨p, hp, hs⟩ hsx hx
  refine ⟨y, hy, (eqv_iff_below ?_ (wf_locate hv hx)).mpr ⟨hyx, hxy⟩⟩
  exact wf_locate (wf_project hv paths) hy

theorem array_project (hv : v.WF) {paths : List String} {p : String} (hp : p ∈ paths)
    {q₁ q₂ : List Step} (hq : (parsePath p).map stepOf = q₁ ++ .each :: q₂) (hm : Matches q₁ ℓ)
    {xs : List Json} (hx : v.locate ℓ = some (.arr xs)) :
    ∃ ys, (project v paths).locate ℓ = some (.arr ys) ∧ ys.length = xs.length := by
  obtain ⟨segs₁, segs, hsegs, rfl, hsegs₂⟩ := List.map_eq_append_iff.mp hq
  obtain ⟨seg, segs₂, rfl, hseg, -⟩ := List.map_eq_cons_iff.mp hsegs₂
  have hseg : seg = "[]" := by
    by_contra hne
    rw [stepOf_key hne] at hseg
    cases hseg
  subst hseg
  obtain ⟨s, hs, hsx⟩ := locate_selectPath hm hx (selectPath_arr xs segs₂)
  rw [← hsegs] at hs
  obtain ⟨y, hy, hty, hyx⟩ := locate_project hv ⟨p, hp, hs⟩ hsx hx
  obtain ⟨ys, rfl⟩ := head_eq_arr (hty.head (by simp)).symm
  refine ⟨ys, hy, le_antisymm (length_le_of_below hyx) ?_⟩
  simpa using length_le_of_below hty

theorem places_project (hv : v.WF) {paths : List String} (hy : (project v paths).locate ℓ = some y) :
    (∃ p ∈ paths, Inside ((parsePath p).map stepOf) ℓ ∨ Passes v ((parsePath p).map stepOf) ℓ) ∨
      y = .null ∧ (ℓ = [] ∨ ∃ p ∈ paths, Element ((parsePath p).map stepOf) ℓ) := by
  rcases (projection hv paths).origin ℓ y hy with ⟨rfl, rfl⟩ | ⟨s, z, ⟨p, hp, hs⟩, hz, hyz⟩
  · exact Or.inr ⟨rfl, Or.inl rfl⟩
  · rcases places_selectPath hs hz with h | ⟨rfl, h⟩
    · exact Or.inl ⟨p, hp, h⟩
    · exact Or.inr ⟨head_eq_null.mp hyz, Or.inr ⟨p, hp, h⟩⟩

/-- What a projection is, whatever the paths are read as. -/
theorem exact_parsed (hv : v.WF) (paths : List String) :
    ExactUnion v (project v paths) (paths.map fun p => (parsePath p).map stepOf) where
  whole := by
    intro q hq ℓ x hm hx
    obtain ⟨p, hp, rfl⟩ := List.mem_map.mp hq
    exact whole_project hv hp hm hx
  arrays := by
    intro q₁ q₂ hq ℓ xs hm hx
    obtain ⟨p, hp, hq⟩ := List.mem_map.mp hq
    obtain ⟨ys, hys, hlen⟩ := array_project hv hp hq hm hx
    refine ⟨ys, hys, hlen, fun i hi hno => ?_⟩
    have hyi : ys[i]? = some ys[i] := List.getElem?_eq_getElem (by omega)
    have hloc : (project v paths).locate (ℓ ++ [.index i]) = some ys[i] := by
      rw [locate_append hys, locate_cons ((child_arr ys i).trans hyi), locate_nil]
    rcases places_project hv hloc with ⟨p', hp', h⟩ | ⟨h0, -⟩
    · have hn := hno _ (List.mem_map_of_mem hp')
      exact absurd h (not_or.mpr hn)
    · rw [hyi, h0]
  inPlace := project_below hv paths
  nothingElse := by
    intro ℓ y hy
    simpa using places_project hv hy

/-- **Projection.** A projection is the union of what its paths address: every addressed value
whole, every array on the way at its length, with `null` where nothing is selected, and
nothing else. Order and repetition of the paths do not matter, nor does projecting again. -/
theorem exact_union (hv : v.WF) {paths : List String} (hstar : ∀ p ∈ paths, .key "*" ∉ steps p) :
    ExactUnion v (project v paths) (paths.map steps) ∧
      (∀ paths' : List String, (∀ p, p ∈ paths' ↔ p ∈ paths) →
        (project v paths').eqv (project v paths) = true) ∧
      (project (project v paths) paths).eqv (project v paths) = true := by
  refine ⟨?_, fun _ h => eqv_project_of_mem hv h, eqv_project_project hv paths⟩
  have hsteps : paths.map steps = paths.map fun p => (parsePath p).map stepOf :=
    List.map_congr_left fun p hp => (stepOf_parsePath (hstar p hp)).symm
  rw [hsteps]
  exact exact_parsed hv paths

/-- Rows of which one lacks a field, and one is `null`. -/
def rows : Json :=
  .obj [("data", .arr [.obj [("a", .str "1"), ("b", .str "2"), ("c", .str "3")], .obj [("a", .str "4")],
    .null, .obj [("b", .str "5")]]), ("more", .bool false)]

theorem rows_stay_aligned :
    project rows ["data[].b", "data[].a"] =
      .obj [("data", .arr [.obj [("b", .str "2"), ("a", .str "1")], .obj [("a", .str "4")], .null,
        .obj [("b", .str "5")]])] ∧
    ExactUnion rows (project rows ["data[].b", "data[].a"])
      [[.key "data", .each, .key "b"], [.key "data", .each, .key "a"]] ∧
    (project rows ["data[].a", "data[].b", "data[].a"]).eqv
      (project rows ["data[].b", "data[].a"]) = true := by
  have hw : rows.WF := by simp [rows, WF, WFList, WFEntries]
  have hsteps : ["data[].b", "data[].a"].map steps =
      [[.key "data", .each, .key "b"], [.key "data", .each, .key "a"]] := by decide +kernel
  have h := @exact_union rows hw ["data[].b", "data[].a"] (by decide +kernel)
  rw [hsteps] at h
  exact ⟨by decide +kernel, h.1, h.2.1 _ (by simp [or_comm])⟩

end MinMcp.L2.Project
