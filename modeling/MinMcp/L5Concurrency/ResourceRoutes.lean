import MinMcp.Core.LTS
import MinMcp.L4App.Resources

/-!
# One table of resources, many callers

`resources/list` asks the upstreams one after the other, those visible to its caller,
and when all have answered adds what it learned to the one table all callers share
(src/surface/resources.rs:46-77). `resources/read` looks the URI up there; on a miss it
lists first, and looks again (:83-109). While an upstream is being asked, other requests
run.

Ghost fields: `listed` is every URI an upstream has listed to anyone, `shown` the URIs of
each caller's last list, `reads` where the reads went. The catalog stays the same. The
condition on a run (`keeps`) looks at the state before the step:

* a list that ends, or the one a read has started, does not lead a URI that some caller
  has been shown to an upstream this caller may not see;
* no caller reads `minmcp://tools`, the proxy's own, because an upstream listed it.

* `lookup_finished`: what an end of a list does to the table.
* `inv_step`: steps under the condition keep the routes of what was shown.
* `reads_routed`: so a caller's read of a URI it was shown goes to an upstream it may see
  and that listed it.
* `other_list_reroutes`: two callers, two upstreams, one URI.
-/
namespace MinMcp.L5.Routes

open MinMcp.Core MinMcp.L4.Catalogs MinMcp.L4.Resources
open MinMcp.L4.SourceMap (Upstream Kind)

structure Caller where
  name : String
  granted : List String
  deriving DecidableEq

/-- A list under way. `read` is the URI it is for, if a read has started it, and whether
the caller had been shown it. -/
structure Task where
  caller : Caller
  todo : List (Upstream × Nat)
  resources : List Json
  origin : Table
  read : Option (String × Bool)

structure Read where
  caller : Caller
  uri : String
  shown : Bool
  sent : List Sent

structure State where
  table : Table
  tasks : Nat → Option Task
  listed : Table
  shown : List (Caller × String)
  reads : List Read

inductive Label where
  | list (r : Nat) (caller : Caller)
  | read (r : Nat) (caller : Caller) (uri : String)
  | answer (r : Nat) (rs : List Json)
  | finish (r : Nat)
  | drop (r : Nat)

section Steps

variable (px : MinMcp.L4.SourceMap.Proxy) (cat : Catalog)

def setTask (s : State) (r : Nat) (t : Option Task) : State :=
  { s with tasks := Function.update s.tasks r t }

theorem setTask_self (s : State) (r : Nat) (t : Option Task) : (setTask s r t).tasks r = t :=
  Function.update_self ..

theorem setTask_of_ne (s : State) {r r' : Nat} (h : r' ≠ r) (t : Option Task) :
    (setTask s r t).tasks r' = s.tasks r' := Function.update_of_ne h ..

def newTask (caller : Caller) (read : Option (String × Bool)) : Task :=
  ⟨caller, visibleUpstreams px caller.granted cat, [], [], read⟩

def startList (s : State) (r : Nat) (caller : Caller) : Option State :=
  match s.tasks r with
  | some _ => none
  | none => some (setTask s r (some (newTask px cat caller none)))

/-- Where a read of this URI is sent, its route known. -/
def sendTo (caller : Caller) (idx : Nat) (uri : String) : List Sent :=
  (readFrom px caller.granted cat ⟨fun _ _ => [], fun _ _ => .error "", fun _ _ _ => .error ""⟩ idx uri).2

/-- mirrors src/surface/resources.rs:83-109, up to the list a miss starts -/
def startRead (s : State) (r : Nat) (caller : Caller) (uri : String) : Option State :=
  let shown := s.shown.contains (caller, uri)
  match s.tasks r with
  | some _ => none
  | none =>
    if uri = sourceMapUri then some { s with reads := s.reads ++ [⟨caller, uri, shown, []⟩] }
    else
      match s.table.lookup uri with
      | some idx => some { s with reads := s.reads ++ [⟨caller, uri, shown, sendTo px cat caller idx uri⟩] }
      | none => some (setTask s r (some (newTask px cat caller (some (uri, shown)))))

/-- The upstream that is being asked answers.
mirrors src/surface/resources.rs:49-65 -/
def answer (s : State) (r : Nat) (rs : List Json) : Option State :=
  match s.tasks r with
  | some ⟨caller, up :: todo, resources, origin, read⟩ =>
    let rs := (listPassthrough
      ⟨fun _ _ => rs, fun _ _ => .error "", fun _ _ _ => .error ""⟩ "resources/list" up).1
    some { setTask s r (some ⟨caller, todo, resources ++ rs, learn up.2 rs origin, read⟩) with
      listed := s.listed ++ (uris rs).map fun uri => (uri, up.2) }
  | _ => none

/-- All have answered: the table is extended, and the answer goes out or the read is
looked up again.
mirrors src/surface/resources.rs:66-77, 98-108 -/
def finish (s : State) (r : Nat) : Option State :=
  match s.tasks r with
  | some ⟨caller, [], resources, origin, read⟩ =>
    let table := OrderedMap.extend s.table origin
    match read with
    | none => some { setTask s r none with
        table, shown := (s.shown.filter fun e => e.1 ≠ caller) ++
          (uris resources).map fun uri => (caller, uri) }
    | some (uri, shown) =>
      let sent := (table.lookup uri).elim [] fun idx => sendTo px cat caller idx uri
      some { setTask s r none with table, reads := s.reads ++ [⟨caller, uri, shown, sent⟩] }
  | _ => none

def step (s : State) : Label → Option State
  | .list r caller => startList px cat s r caller
  | .read r caller uri => startRead px cat s r caller uri
  | .answer r rs => answer s r rs
  | .finish r => finish px cat s r
  | .drop r => some (setTask s r none)

def Starts (s : State) : Prop :=
  s.table = [] ∧ (∀ r, s.tasks r = none) ∧ s.listed = [] ∧ s.shown = [] ∧ s.reads = []

def system : LTS State Label := ⟨Starts, step px cat⟩

/-- The upstream may be seen by the caller and has listed the URI. -/
def Serves (listed : Table) (caller : Caller) (uri : String) (idx : Nat) : Prop :=
  upstreamVisible px caller.granted cat idx = true ∧ (uri, idx) ∈ listed

/-- The read went to such an upstream. -/
def Routed (s : State) (e : Read) : Prop :=
  ∃ idx, Serves px cat s.listed e.caller e.uri idx ∧ e.sent = [.read idx e.uri]

def keeps (s : State) : Label → Bool
  | .finish r => (s.tasks r).all fun t => s.shown.all fun e =>
      (t.origin.lookup e.2).all fun idx => upstreamVisible px e.1.granted cat idx
  | .read _ caller uri => !s.shown.contains (caller, uri) || uri ≠ sourceMapUri
  | _ => true

end Steps

/-! ## Tables -/

theorem mem_learn {idx : Nat} {rs : List Json} {origin : Table} {e : String × Nat}
    (h : e ∈ learn idx rs origin) : e ∈ origin ∨ e ∈ (uris rs).map fun uri => (uri, idx) := by
  unfold learn at h
  generalize uris rs = us at h ⊢
  induction us generalizing origin with
  | nil => exact Or.inl h
  | cons uri us ih =>
    rcases ih h with h | h
    · rcases OrderedMap.mem_insert h with rfl | h
      · exact Or.inr List.mem_cons_self
      · exact Or.inl h
    · exact Or.inr (List.mem_cons_of_mem _ h)

theorem nodup_learn (idx : Nat) (rs : List Json) {origin : Table} (h : (OrderedMap.keys origin).Nodup) :
    (OrderedMap.keys (learn idx rs origin)).Nodup := by
  unfold learn
  induction uris rs generalizing origin with
  | nil => exact h
  | cons uri us ih => exact ih (OrderedMap.nodup_insert uri idx h)

theorem mem_keys_learn {idx : Nat} {rs : List Json} {origin : Table} {uri : String} :
    uri ∈ OrderedMap.keys (learn idx rs origin) ↔ uri ∈ uris rs ∨ uri ∈ OrderedMap.keys origin := by
  unfold learn
  induction uris rs generalizing origin with
  | nil => simp
  | cons u us ih =>
    rw [List.foldl_cons, ih, OrderedMap.mem_keys_insert, List.mem_cons]
    tauto

theorem uris_append (xs ys : List Json) : uris (xs ++ ys) = uris xs ++ uris ys := List.filterMap_append

/-- The table leads where the finished list leads, and elsewhere where it led. -/
theorem lookup_finished {table origin : Table} (hn : (OrderedMap.keys origin).Nodup) (uri : String) :
    (OrderedMap.extend table origin).lookup uri = (origin.lookup uri).or (table.lookup uri) := by
  rw [OrderedMap.lookup_extend, OrderedMap.lookup_reverse hn]

/-! ## The invariant -/

section Invariant

variable {px : MinMcp.L4.SourceMap.Proxy} {cat : Catalog}

/-- A list under way has learned its routes from upstreams its caller may see. -/
structure Task.Sound (px : MinMcp.L4.SourceMap.Proxy) (cat : Catalog) (listed : Table) (t : Task) :
    Prop where
  todo : ∀ up ∈ t.todo, up ∈ visibleUpstreams px t.caller.granted cat
  routes : ∀ e ∈ t.origin, Serves px cat listed t.caller e.1 e.2
  nodup : (OrderedMap.keys t.origin).Nodup
  known : ∀ uri ∈ uris t.resources, uri ∈ OrderedMap.keys t.origin
  unshown : ∀ uri b, t.read = some (uri, b) → b = false

structure Inv (px : MinMcp.L4.SourceMap.Proxy) (cat : Catalog) (s : State) : Prop where
  real : ∀ e ∈ s.listed, ∃ up, px.upstreams[e.2]? = some up ∧ up.kind ≠ .spec
  tasks : ∀ r t, s.tasks r = some t → t.Sound px cat s.listed
  shown : ∀ e ∈ s.shown, ∃ idx, s.table.lookup e.2 = some idx ∧ Serves px cat s.listed e.1 e.2 idx
  reads : ∀ e ∈ s.reads, e.shown = true → Routed px cat s e

theorem Serves.mono {listed listed' : Table} (hsub : listed ⊆ listed') {caller : Caller}
    {uri : String} {idx : Nat}
    (h : Serves px cat listed caller uri idx) : Serves px cat listed' caller uri idx := ⟨h.1, hsub h.2⟩

theorem Task.Sound.mono {listed listed' : Table} (hsub : listed ⊆ listed') {t : Task}
    (h : t.Sound px cat listed) :
    t.Sound px cat listed' :=
  ⟨h.todo, fun e he => (h.routes e he).mono hsub, h.nodup, h.known, h.unshown⟩

theorem newTask_sound (listed : Table) (caller : Caller) {read : Option (String × Bool)}
    (hr : ∀ uri b, read = some (uri, b) → b = false) : (newTask px cat caller read).Sound px cat listed where
  todo _ h := h
  routes _ h := absurd h List.not_mem_nil
  nodup := List.nodup_nil
  known _ h := absurd h List.not_mem_nil
  unshown := hr

/-- Read where its route leads, a URI is read from an upstream that serves it. -/
theorem sendTo_serves {listed : Table}
    (hreal : ∀ e ∈ listed, ∃ up, px.upstreams[e.2]? = some up ∧ up.kind ≠ .spec)
    {caller : Caller} {uri : String} {idx : Nat} (h : Serves px cat listed caller uri idx) :
    sendTo px cat caller idx uri = [.read idx uri] := by
  obtain ⟨up, hup, hk⟩ := hreal _ h.2
  unfold sendTo readFrom
  rw [if_pos h.1, hup, Option.map_some]
  cases hkind : up.kind with
  | mcp | http => rfl
  | spec => exact absurd hkind hk

theorem Inv.setTask {s : State} (h : Inv px cat s) (r : Nat) {t : Option Task}
    (ht : ∀ t', t = some t' → t'.Sound px cat s.listed) : Inv px cat (setTask s r t) := by
  refine ⟨h.real, ?_, h.shown, h.reads⟩
  intro r' t' hr
  by_cases he : r' = r
  · rw [he, setTask_self] at hr
    exact ht t' hr
  · rw [setTask_of_ne s he] at hr
    exact h.tasks r' t' hr

/-- A read is recorded. -/
theorem Inv.addRead {s : State} (h : Inv px cat s) {e : Read} (he : e.shown = true → Routed px cat s e) :
    Inv px cat { s with reads := s.reads ++ [e] } := by
  refine ⟨h.real, h.tasks, h.shown, ?_⟩
  intro e' he' hs
  rcases List.mem_append.mp he' with he' | he'
  · exact h.reads e' he' hs
  · obtain rfl := List.mem_singleton.mp he'
    exact he hs

theorem inv_startRead {s s' : State} {r : Nat} {caller : Caller} {uri : String} (h : Inv px cat s)
    (hg : keeps px cat s (.read r caller uri) = true) (hs : startRead px cat s r caller uri = some s') :
    Inv px cat s' := by
  have hshown : s.shown.contains (caller, uri) = true → (caller, uri) ∈ s.shown := List.contains_iff_mem.mp
  unfold startRead at hs
  dsimp only at hs
  split at hs
  · cases hs
  · split at hs
    · next huri =>
      -- the proxy's own resource was not shown as an upstream's
      obtain rfl := Option.some.inj hs
      refine h.addRead fun hb => ?_
      dsimp only at hb
      rw [keeps, hb] at hg
      simp [huri] at hg
    · split at hs
      · next idx hroute =>
        obtain rfl := Option.some.inj hs
        refine h.addRead fun hb => ?_
        obtain ⟨idx', hl, hserves⟩ := h.shown _ (hshown hb)
        obtain rfl := Option.some.inj (hroute.symm.trans hl)
        exact ⟨idx, hserves, sendTo_serves h.real hserves⟩
      · next hmiss =>
        obtain rfl := Option.some.inj hs
        refine h.setTask r fun t ht => ?_
        obtain rfl := Option.some.inj ht
        refine newTask_sound s.listed caller fun uri' b hb => ?_
        -- what was shown is in the table
        obtain ⟨rfl, rfl⟩ := Prod.mk.inj (Option.some.inj hb)
        by_contra hne
        rw [Bool.not_eq_false] at hne
        obtain ⟨idx, hl, -⟩ := h.shown _ (hshown hne)
        rw [hmiss] at hl
        cases hl

theorem inv_answer {s s' : State} {r : Nat} {rs : List Json} (h : Inv px cat s)
    (hs : answer s r rs = some s') : Inv px cat s' := by
  unfold answer at hs
  split at hs
  · next caller up todo resources origin read hr =>
    obtain rfl := Option.some.inj hs
    have ht := h.tasks r _ hr
    have hup : up ∈ visibleUpstreams px caller.granted cat := ht.todo up List.mem_cons_self
    obtain ⟨hget, hvisible⟩ := mem_visibleUpstreams.mp hup
    generalize hrs : (listPassthrough ⟨fun _ _ => rs, fun _ _ => .error "", fun _ _ _ => .error ""⟩
      "resources/list" up).1 = got
    have hkind : uris got ≠ [] → up.1.kind ≠ .spec := by
      intro hne hk
      unfold listPassthrough at hrs
      rw [hk] at hrs
      exact hne (hrs ▸ rfl)
    have hsub : s.listed ⊆ s.listed ++ (uris got).map fun uri => (uri, up.2) := List.subset_append_left _ _
    have hnew : ∀ e ∈ (uris got).map fun uri => (uri, up.2),
        Serves px cat (s.listed ++ (uris got).map fun uri => (uri, up.2)) caller e.1 e.2 := by
      intro e he
      obtain ⟨uri, hu, rfl⟩ := List.mem_map.mp he
      exact ⟨hvisible, List.mem_append_right _ he⟩
    refine ⟨?_, ?_, ?_, ?_⟩
    · intro e he
      rcases List.mem_append.mp he with he | he
      · exact h.real e he
      · obtain ⟨uri, hu, rfl⟩ := List.mem_map.mp he
        exact ⟨up.1, hget, hkind (List.ne_nil_of_mem hu)⟩
    · intro r' t' hr'
      by_cases he : r' = r
      · rw [he] at hr'
        obtain rfl := Option.some.inj ((setTask_self s r _).symm.trans hr')
        refine ⟨fun u hu => ht.todo u (List.mem_cons_of_mem _ hu), ?_, nodup_learn up.2 got ht.nodup,
          ?_, ht.unshown⟩
        · intro e hmem
          rcases mem_learn hmem with hmem | hmem
          · exact (ht.routes e hmem).mono hsub
          · exact hnew e hmem
        · intro uri hu
          rw [uris_append, List.mem_append] at hu
          exact mem_keys_learn.mpr (hu.symm.imp_right (ht.known uri))
      · exact (h.tasks r' t' ((setTask_of_ne s he _).symm.trans hr')).mono hsub
    · intro e he
      obtain ⟨idx, hl, hserves⟩ := h.shown e he
      exact ⟨idx, hl, hserves.mono hsub⟩
    · intro e he hb
      obtain ⟨idx, hserves, hsent⟩ := h.reads e he hb
      exact ⟨idx, hserves.mono hsub, hsent⟩
  · cases hs

/-- A finished list keeps the routes of what was shown, if the state allows it to end. -/
theorem shown_extend {s : State} {r : Nat} {t : Task} (h : Inv px cat s) (hr : s.tasks r = some t)
    (hg : keeps px cat s (.finish r) = true) : ∀ e ∈ s.shown,
      ∃ idx, (OrderedMap.extend s.table t.origin).lookup e.2 = some idx ∧
        Serves px cat s.listed e.1 e.2 idx := by
  intro e he
  have ht := h.tasks r t hr
  rw [lookup_finished ht.nodup]
  cases hl : t.origin.lookup e.2 with
  | none =>
    rw [Option.none_or]
    exact h.shown e he
  | some idx =>
    rw [Option.some_or]
    refine ⟨idx, rfl, ?_, (ht.routes _ (OrderedMap.mem_of_lookup hl)).2⟩
    simp only [keeps] at hg
    rw [hr, Option.all_some, List.all_eq_true] at hg
    have := hg e he
    rwa [hl, Option.all_some] at this

theorem inv_finish {s s' : State} {r : Nat} (h : Inv px cat s) (hg : keeps px cat s (.finish r) = true)
    (hs : finish px cat s r = some s') : Inv px cat s' := by
  unfold finish at hs
  split at hs
  · next caller resources origin read hr =>
    have ht := h.tasks r _ hr
    have hkept := shown_extend h hr hg
    have hset : Inv px cat (MinMcp.L5.Routes.setTask s r none) := h.setTask r fun t' ht' => by cases ht'
    dsimp only at hs
    split at hs
    · obtain rfl := Option.some.inj hs
      refine ⟨h.real, hset.tasks, ?_, h.reads⟩
      intro e he
      rcases List.mem_append.mp he with he | he
      · exact hkept e (List.mem_of_mem_filter he)
      · obtain ⟨uri, hu, rfl⟩ := List.mem_map.mp he
        obtain ⟨idx, hl⟩ := OrderedMap.lookup_isSome.mpr (ht.known uri hu)
        refine ⟨idx, ?_, ht.routes _ (OrderedMap.mem_of_lookup hl)⟩
        rw [lookup_finished ht.nodup]
        dsimp only
        rw [hl, Option.some_or]
    · next uri b =>
      obtain rfl := Option.some.inj hs
      obtain rfl := ht.unshown uri b rfl
      have hext : Inv px cat
          { MinMcp.L5.Routes.setTask s r none with table := OrderedMap.extend s.table origin } :=
        ⟨h.real, hset.tasks, hkept, h.reads⟩
      exact hext.addRead fun hb => by cases hb
  · cases hs

/-- **Step.** -/
theorem inv_step : (system px cat).Preserves (fun s l => keeps px cat s l = true) (Inv px cat) := by
  intro s l s' h hg hs
  cases l with
  | list r caller =>
    change startList px cat s r caller = some s' at hs
    unfold startList at hs
    split at hs
    · cases hs
    · obtain rfl := Option.some.inj hs
      refine h.setTask r fun t ht => ?_
      obtain rfl := Option.some.inj ht
      exact newTask_sound s.listed caller fun uri b hb => by cases hb
  | read r caller uri => exact inv_startRead h hg hs
  | answer r rs => exact inv_answer h hs
  | finish r => exact inv_finish h hg hs
  | drop r =>
    obtain rfl := Option.some.inj hs
    exact h.setTask r fun t ht => by cases ht

theorem inv_starts {s : State} (h : Starts s) : Inv px cat s := by
  obtain ⟨-, htasks, hlisted, hshown, hreads⟩ := h
  refine ⟨?_, ?_, ?_, ?_⟩
  · rw [hlisted]
    exact fun e he => absurd he List.not_mem_nil
  · intro r t hr
    rw [htasks r] at hr
    cases hr
  · rw [hshown]
    exact fun e he => absurd he List.not_mem_nil
  · rw [hreads]
    exact fun e he => absurd he List.not_mem_nil

theorem inv_invariant : (system px cat).Invariant (fun s l => keeps px cat s l = true) (Inv px cat) where
  init _ h := inv_starts h
  step := inv_step

/-- **Routes.** In every run under the condition, a read of a URI its caller was shown
goes to an upstream visible to the caller that listed it. -/
theorem reads_routed (px : MinMcp.L4.SourceMap.Proxy) (cat : Catalog) (s₀ s : State) (ls : List Label)
    (h₀ : Starts s₀) (hg : (system px cat).Guarded (fun s l => keeps px cat s l = true) s₀ ls)
    (he : (system px cat).exec s₀ ls = some s) : ∀ e ∈ s.reads, e.shown = true → Routed px cat s e :=
  (inv_invariant.exec h₀ hg he).reads

end Invariant

/-! ## Two callers -/

/-- The scope `ra` is for `a.x`, the scope `rb` for `b.x`. -/
def twoUpstreams : MinMcp.L4.SourceMap.Proxy where
  cfg := ⟨.threeTool, ⟨[], []⟩, ⟨[⟨"ra", ["a.x"]⟩, ⟨"rb", ["b.x"]⟩], false⟩, .weak, .warn, []⟩
  upstreams := [⟨⟨"a", fun _ => none⟩, .mcp, fun _ => none⟩, ⟨⟨"b", fun _ => none⟩, .mcp, fun _ => none⟩]
  authoredSha _ := none
  errorHints _ := 0

def twoCatalog : Catalog :=
  (assemble twoUpstreams.cfg some twoUpstreams.backends
    [[toolDef "a" 0 (.obj [("name", .str "x")])], [toolDef "b" 1 (.obj [("name", .str "x")])]]).getD
      ⟨[], [], [], [], [], [], [], []⟩

def start : State := ⟨[], fun _ => none, [], [], []⟩

theorem start_starts : Starts start := ⟨rfl, fun _ => rfl, rfl, rfl, rfl⟩

def ann : Caller := ⟨"ann", ["ra"]⟩

def bob : Caller := ⟨"bob", ["rb"]⟩

def resource (uri : String) : Json := .obj [("uri", .str uri)]

/-- Ann lists, Bob lists, Ann reads what she was shown. -/
def bothList (uri : String) : List Label :=
  [.list 0 ann, .answer 0 [resource "doc"], .finish 0, .list 1 bob, .answer 1 [resource uri], .finish 1,
    .read 2 ann "doc"]

/-- Bob's upstream lists something else: Ann's read goes to hers. -/
theorem own_list_is_read :
    ∃ s, (system twoUpstreams twoCatalog).exec start (bothList "log") = some s ∧
      s.reads.map Read.shown = [true] ∧ ∀ e ∈ s.reads, e.shown = true → Routed twoUpstreams twoCatalog s e := by
  have hr : ((system twoUpstreams twoCatalog).exec start (bothList "log")).map
      (fun s => s.reads.map Read.shown) = some [true] := by decide +kernel
  obtain ⟨s, hs, hreads⟩ := Option.map_eq_some_iff.mp hr
  exact ⟨s, hs, hreads, reads_routed twoUpstreams twoCatalog start s (bothList "log") start_starts
    (by decide +kernel) hs⟩

/-- Bob's upstream lists the same URI: Ann's read is refused. -/
theorem other_list_reroutes :
    ∃ s, (system twoUpstreams twoCatalog).exec start (bothList "doc") = some s ∧
      ∃ e ∈ s.reads, e.shown = true ∧ ¬ Routed twoUpstreams twoCatalog s e := by
  have hr : ((system twoUpstreams twoCatalog).exec start (bothList "doc")).map
      (fun s => s.reads.map fun e => (e.shown, e.sent.length)) = some [(true, 0)] := by decide +kernel
  obtain ⟨s, hs, hreads⟩ := Option.map_eq_some_iff.mp hr
  obtain ⟨e, he, hfields⟩ := List.map_eq_singleton_iff.mp hreads
  obtain ⟨hshown, hsent⟩ := Prod.mk.inj hfields
  refine ⟨s, hs, e, he ▸ List.mem_singleton_self e, hshown, ?_⟩
  intro h
  obtain ⟨idx, -, hroute⟩ := h
  rw [hroute] at hsent
  cases hsent

end MinMcp.L5.Routes
