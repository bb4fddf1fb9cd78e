import MinMcp.L5Concurrency.Reindex
import Mathlib.Data.List.Nodup

/-!
# What is served after re-indexing

The catalog served is at all times the one assembled from each upstream's last accepted
listing, and it passes the checks. An upstream's new listing is judged as if it had come
alone: another one's in the same round, accepted or refused, makes no difference.

Two things are assumed: header secrets keep resolving, and the tool ids of different
upstreams are different (`owner` says whose an id is). Accepted is what a task has
published; a task that was dropped has accepted nothing.

* `lastAccepted`: each upstream's last accepted listing, or the one it started with.
* `ServedInv`, `served_step`: the catalog and the running task.
* `Later`, `later_step`: what a round keeps while it goes on.
* `served_catalog`: what holds in every reachable state, and what the end of a round does.
-/
namespace MinMcp.L5.Reindex

open MinMcp.Core MinMcp.L4.Catalogs MinMcp.L4.Vet

/-- Each upstream's last accepted listing, or the one it started with. -/
def lastAccepted (start : List (List ToolDef)) (history : List (Nat × List ToolDef)) :
    List (List ToolDef) :=
  start.mapIdx fun i l => ((history.filter fun h => h.1 = i).getLast?.map Prod.snd).getD l

theorem lastAccepted_nil (start : List (List ToolDef)) : lastAccepted start [] = start := by
  apply List.ext_getElem?
  intro i
  simp [lastAccepted, List.getElem?_mapIdx]

theorem lastAccepted_snoc (start : List (List ToolDef)) (history : List (Nat × List ToolDef)) (i : Nat)
    (l : List ToolDef) : lastAccepted start (history ++ [(i, l)]) = (lastAccepted start history).set i l := by
  apply List.ext_getElem?
  intro k
  by_cases hk : i = k
  · subst hk
    by_cases hin : i < start.length
    · rw [List.getElem?_set_self (by simpa [lastAccepted] using hin)]
      simp [lastAccepted, List.getElem?_mapIdx, List.getElem?_eq_getElem hin]
    · have hout : start.length ≤ i := Nat.le_of_not_lt hin
      rw [List.getElem?_eq_none (by simpa [lastAccepted] using hout),
        List.getElem?_eq_none (by simpa [lastAccepted] using hout)]
  · rw [List.getElem?_set_ne hk]
    simp [lastAccepted, List.getElem?_mapIdx, List.filter_append, hk]

variable (px : Proxy) (owner : String → Nat)

/-- Header secrets resolve, and an upstream lists ids of its own. -/
def Orderly (s : State) : Label → Prop
  | .judge expand => ∀ v, (expand v).isSome
  | .answer page _ _ => ∀ t i asked up, s.task = some t → t.listing = some (i, asked) →
      px.upstreams[i]? = some up → ∀ d ∈ page.map (toolDef up.name i), owner d.id = i
  | _ => True

/-- The catalog with this one change passes the checks. -/
def PassesAlone (cat : Catalog) (f : Fresh) : Prop :=
  ∃ expand c, assemble px.cfg expand px.upstreams (cat.listings.set f.idx f.tools) = some c ∧
    vet px.cfg px.upstreams px.lowercase c = .ok ()

/-- The listing has a new fingerprint. -/
def Changed (cat : Catalog) (f : Fresh) : Prop :=
  listingFingerprint f.tools ≠ listingFingerprint ((cat.listings[f.idx]?).getD [])

/-- The catalog was assembled from its listings, and passed the checks. -/
structure Sound (cat : Catalog) : Prop where
  complete : cat.listings.length = px.upstreams.length
  owned : OwnedBy owner cat.listings
  assembled : ∃ expand, assemble px.cfg expand px.upstreams cat.listings = some cat
  vetted : vet px.cfg px.upstreams px.lowercase cat = .ok ()

/-- The upstreams a task has to list, lists, or has new listings of. -/
def Task.round (t : Task) : List Nat :=
  t.due ++ (t.listing.map Prod.fst).toList ++ t.fresh.map Fresh.idx ++ t.judged.map fun j => j.1.idx

/-- The task has a new listing, judged or not. -/
def Task.Listed (t : Task) (f : Fresh) : Prop := f ∈ t.fresh ∨ ∃ b, (f, b) ∈ t.judged

/-- The listings of a round that were accepted, in order. -/
def Task.done (t : Task) : List Fresh := (t.judged.filter Prod.snd).map Prod.fst

/-- The family with these listings put in. -/
def setAll (ls : List (List ToolDef)) (done : List Fresh) : List (List ToolDef) :=
  done.foldl (fun ls f => ls.set f.idx f.tools) ls

structure TaskInv (cat : Catalog) (t : Task) : Prop where
  current : t.current = cat
  fresh : ∀ f ∈ t.fresh, f.idx < px.upstreams.length ∧ ∀ d ∈ f.tools, owner d.id = f.idx
  pending : t.accepted = none → t.done = []
  sound : ∀ c, t.accepted = some c → Sound px owner c
  inForce : t.inForce = setAll cat.listings t.done
  range : ∀ f b, (f, b) ∈ t.judged → f.idx < px.upstreams.length
  verdicts : ∀ f b, (f, b) ∈ t.judged → (b = true ↔ PassesAlone px cat f)
  changed : ∀ f, t.Listed f → Changed cat f
  distinct : t.round.Nodup

structure ServedInv (s : State) : Prop where
  sound : Sound px owner s.cat
  family : s.cat.listings = lastAccepted s.start s.history
  task : ∀ t, s.task = some t → TaskInv px owner s.cat t

variable {px : Proxy} {owner : String → Nat}

/-! ## Judging one listing -/

section Judge

variable {cat : Catalog} {f : Fresh}

/-- On top of any catalog that passes, a new listing passes exactly when it does on its own. -/
theorem vet_on_top (h : Sound px owner cat) (hi : f.idx < px.upstreams.length)
    (ho : ∀ d ∈ f.tools, owner d.id = f.idx) {expand : String → Option String} {c : Catalog}
    (hc : assemble px.cfg expand px.upstreams (cat.listings.set f.idx f.tools) = some c) :
    vet px.cfg px.upstreams px.lowercase c = .ok () ↔
      OwnVet px.cfg px.upstreams px.lowercase owner f.idx (px.upstreams[f.idx], f.tools) := by
  obtain ⟨expand₀, ha⟩ := h.assembled
  exact vet_set h.owned ha h.vetted (h.complete ▸ hi) (List.getElem?_eq_getElem hi) ho hc

theorem passesAlone_iff (h : Sound px owner cat) (hi : f.idx < px.upstreams.length)
    (ho : ∀ d ∈ f.tools, owner d.id = f.idx) :
    PassesAlone px cat f ↔
      OwnVet px.cfg px.upstreams px.lowercase owner f.idx (px.upstreams[f.idx], f.tools) := by
  constructor
  · intro ⟨expand, c, hc, hv⟩
    exact (vet_on_top h hi ho hc).mp hv
  · intro hown
    obtain ⟨c, hc⟩ := assemble_isSome px.cfg (fun v => (rfl : (some v).isSome = true)) px.upstreams
      (cat.listings.set f.idx f.tools)
    exact ⟨some, c, hc, (vet_on_top h hi ho hc).mpr hown⟩

/-- An accepted catalog is sound again. -/
theorem Sound.set (h : Sound px owner cat) (hi : f.idx < px.upstreams.length)
    (ho : ∀ d ∈ f.tools, owner d.id = f.idx) {expand : String → Option String} {c : Catalog}
    (hc : assemble px.cfg expand px.upstreams (cat.listings.set f.idx f.tools) = some c)
    (hv : vet px.cfg px.upstreams px.lowercase c = .ok ()) : Sound px owner c := by
  have hl := assemble_listings hc
  refine ⟨?_, ?_, ⟨expand, by rw [hl]; exact hc⟩, hv⟩
  · rw [hl, List.length_set]
    exact h.complete
  · intro k ts hk d hd
    rw [hl] at hk
    by_cases he : f.idx = k
    · rw [← he, List.getElem?_set_self (h.complete ▸ hi)] at hk
      obtain rfl := Option.some.inj hk
      exact he ▸ ho d hd
    · rw [List.getElem?_set_ne he] at hk
      exact h.owned k ts hk d hd

end Judge

/-! ## A round -/

theorem lastAccepted_round (start : List (List ToolDef)) (done : List Fresh)
    (history : List (Nat × List ToolDef)) :
    lastAccepted start (history ++ done.map fun f => (f.idx, f.tools)) =
      setAll (lastAccepted start history) done := by
  unfold setAll
  induction done generalizing history with
  | nil => rw [List.map_nil, List.append_nil, List.foldl_nil]
  | cons f done ih =>
    have := ih (history ++ [(f.idx, f.tools)])
    rwa [List.append_assoc, List.singleton_append, lastAccepted_snoc] at this

theorem setAll_snoc (ls : List (List ToolDef)) (done : List Fresh) (f : Fresh) :
    setAll ls (done ++ [f]) = (setAll ls done).set f.idx f.tools := by
  rw [setAll, List.foldl_append]
  rfl

theorem setAll_of_ne {i : Nat} (done : List Fresh) (ls : List (List ToolDef)) (h : ∀ f ∈ done, f.idx ≠ i) :
    (setAll ls done)[i]? = ls[i]? := by
  unfold setAll
  induction done generalizing ls with
  | nil => rfl
  | cons f done ih =>
    rw [List.forall_mem_cons] at h
    rw [List.foldl_cons, ih _ h.2, List.getElem?_set_ne h.1]

theorem setAll_of_mem {f : Fresh} (done : List Fresh) (ls : List (List ToolDef))
    (hn : (done.map Fresh.idx).Nodup) (hf : f ∈ done) (hi : f.idx < ls.length) :
    (setAll ls done)[f.idx]? = some f.tools := by
  induction done generalizing ls with
  | nil => cases hf
  | cons g done ih =>
    rw [List.map_cons, List.nodup_cons] at hn
    rcases List.mem_cons.mp hf with rfl | hf
    · have hrest : ∀ g ∈ done, g.idx ≠ f.idx := fun g hg he => hn.1 (he ▸ List.mem_map_of_mem hg)
      have := setAll_of_ne done (ls.set f.idx f.tools) hrest
      rw [List.getElem?_set_self hi] at this
      exact this
    · exact ih (ls.set g.idx g.tools) hn.2 hf (by rwa [List.length_set])

section Steps

variable {s s' : State}

theorem TaskInv.base {cat : Catalog} {t : Task} (h : TaskInv px owner cat t) (hc : Sound px owner cat) :
    Sound px owner (t.accepted.getD t.current) := by
  cases ha : t.accepted with
  | none =>
    rw [Option.getD_none, h.current]
    exact hc
  | some c => exact h.sound c ha

/-- What a round has accepted is the family with its listings put in. -/
theorem TaskInv.accepted_listings {cat c : Catalog} {t : Task} (h : TaskInv px owner cat t)
    (ha : t.accepted = some c) : c.listings = setAll cat.listings t.done := by
  have hforce := h.inForce
  rwa [Task.inForce, ha, Option.getD_some] at hforce

/-- The task moves on; what is served stays. -/
theorem ServedInv.setTask (h : ServedInv px owner s) {t : Task} (hT : TaskInv px owner s.cat t)
    (hc : s'.cat = s.cat) (hst : s'.start = s.start) (hh : s'.history = s.history) (ht : s'.task = some t) :
    ServedInv px owner s' := by
  refine ⟨hc ▸ h.sound, ?_, ?_⟩
  · rw [hc, hst, hh]
    exact h.family
  · intro u hu
    obtain rfl := Option.some.inj (ht.symm.trans hu)
    exact hc ▸ hT

theorem served_begin (h : ServedInv px owner s) (hs : s.begin px = some s') : ServedInv px owner s' := by
  unfold State.begin at hs
  split at hs
  · cases hs
  · split at hs
    · cases hs
    · obtain rfl := Option.some.inj hs
      refine h.setTask ?_ rfl rfl rfl rfl
      refine ⟨rfl, ?_, fun _ => rfl, ?_, rfl, ?_, ?_, ?_, ?_⟩
      · intro f hf
        cases hf
      · intro c hc
        cases hc
      · intro f b hf
        cases hf
      · intro f b hf
        cases hf
      · rintro f (hf | ⟨b, hf⟩)
        · cases hf
        · cases hf
      · simp only [Task.round, Option.map_none, Option.toList_none, List.map_nil, List.append_nil]
        exact List.nodup_range.filter _

theorem served_request (h : ServedInv px owner s) (hs : s.request = some s') : ServedInv px owner s' := by
  unfold State.request at hs
  split at hs
  · next t ht =>
    have hT := h.task t ht
    split at hs
    · next i rest hl hd =>
      obtain rfl := Option.some.inj hs
      refine h.setTask ?_ rfl rfl rfl rfl
      refine ⟨hT.current, hT.fresh, hT.pending, hT.sound, hT.inForce, hT.range, hT.verdicts, hT.changed, ?_⟩
      have := hT.distinct
      simp only [Task.round, hl, hd, Option.map_none, Option.toList_none, List.append_nil, Option.map_some,
        Option.toList_some, List.append_assoc, List.cons_append, List.nil_append] at this ⊢
      exact (List.perm_middle.nodup_iff).mpr this
    · cases hs
  · cases hs

theorem served_answer {page : List Json} {ttl : Option Nat} {version : Nat} (h : ServedInv px owner s)
    (hg : Orderly px owner s (.answer page ttl version)) (hs : s.answer px page ttl version = some s') :
    ServedInv px owner s' := by
  unfold State.answer at hs
  split at hs
  · next t ht =>
    have hT := h.task t ht
    split at hs
    · next i asked hl =>
      have hround := hT.distinct
      simp only [Task.round, hl, Option.map_some, Option.toList_some] at hround
      split at hs
      · next up hup =>
        split at hs
        · dsimp only at hs
          split at hs
          · next hnew =>
            obtain rfl := Option.some.inj hs
            refine h.setTask ?_ rfl rfl rfl rfl
            refine ⟨hT.current, ?_, hT.pending, hT.sound, hT.inForce, hT.range, hT.verdicts, ?_, ?_⟩
            · intro f hf
              rcases List.mem_append.mp hf with hf | hf
              · exact hT.fresh f hf
              · obtain rfl := List.mem_singleton.mp hf
                exact ⟨(List.getElem?_eq_some_iff.mp hup).1, hg t i asked up ht hl hup⟩
            · rintro f (hf | hf)
              · rcases List.mem_append.mp hf with hf | hf
                · exact hT.changed f (Or.inl hf)
                · obtain rfl := List.mem_singleton.mp hf
                  rw [hT.current] at hnew
                  exact hnew
              · exact hT.changed f (Or.inr hf)
            · -- the upstream moves from the one being listed to the new listings
              refine (List.Perm.nodup_iff ?_).mpr hround
              simp only [Task.round, Option.map_none, Option.toList_none, List.append_nil, List.map_append,
                List.map_cons, List.map_nil, List.append_assoc, List.singleton_append]
              exact List.Perm.append_left _ List.perm_middle
          · obtain rfl := Option.some.inj hs
            refine h.setTask ?_ rfl rfl rfl rfl
            refine ⟨hT.current, hT.fresh, hT.pending, hT.sound, hT.inForce, hT.range, hT.verdicts,
              hT.changed, ?_⟩
            refine hround.sublist ?_
            simp only [Task.round, Option.map_none, Option.toList_none, List.append_nil, List.append_assoc]
            exact List.Sublist.append_left (List.sublist_append_right _ _) _
        · cases hs
      · cases hs
    · cases hs
  · cases hs

theorem served_fail (h : ServedInv px owner s) (hs : s.fail = some s') : ServedInv px owner s' := by
  unfold State.fail at hs
  split at hs
  · next t ht =>
    have hT := h.task t ht
    split at hs
    · next i asked hl =>
      obtain rfl := Option.some.inj hs
      refine h.setTask ?_ rfl rfl rfl rfl
      refine ⟨hT.current, hT.fresh, hT.pending, hT.sound, hT.inForce, hT.range, hT.verdicts, hT.changed, ?_⟩
      have hround := hT.distinct
      refine hround.sublist ?_
      simp only [Task.round, hl, Option.map_none, Option.toList_none, List.append_nil, List.append_assoc]
      exact List.Sublist.append_left (List.sublist_append_right _ _) _
    · cases hs
  · cases hs

theorem Task.round_judge {t : Task} {f : Fresh} {rest : List Fresh} (hl : t.listing = none)
    (hd : t.due = []) (hf : t.fresh = f :: rest) (b : Bool) (accepted : Option Catalog) (h : t.round.Nodup) :
    Task.round { t with fresh := rest, accepted := accepted, judged := t.judged ++ [(f, b)] } |>.Nodup := by
  refine (List.Perm.nodup_iff ?_).mpr h
  simp only [Task.round, hl, hd, hf, Option.map_none, Option.toList_none, List.append_nil, List.map_append,
    List.map_cons, List.map_nil, List.nil_append, List.cons_append]
  rw [← List.append_assoc]
  exact List.perm_append_singleton _ _

theorem Task.done_accept (t : Task) (f : Fresh) (rest : List Fresh) (c : Option Catalog) :
    Task.done { t with fresh := rest, accepted := c, judged := t.judged ++ [(f, true)] } = t.done ++ [f] := by
  simp [Task.done]

theorem Task.done_refuse (t : Task) (f : Fresh) (rest : List Fresh) :
    Task.done { t with fresh := rest, judged := t.judged ++ [(f, false)] } = t.done := by
  simp [Task.done]

/-- A verdict is about the listing alone, whatever was accepted before it in the round. -/
theorem served_judge {expand : String → Option String} (h : ServedInv px owner s)
    (hg : ∀ v, (expand v).isSome) (hs : s.judge px expand = some s') : ServedInv px owner s' := by
  unfold State.judge at hs
  split at hs
  · next t ht =>
    have hT := h.task t ht
    split at hs
    · next f rest hl hd hf =>
      obtain ⟨hi, ho⟩ := hT.fresh f (hf ▸ List.mem_cons_self)
      have hrest : ∀ g ∈ rest, g.idx < px.upstreams.length ∧ ∀ d ∈ g.tools, owner d.id = g.idx :=
        fun g hm => hT.fresh g (hf ▸ List.mem_cons_of_mem f hm)
      have hbase := hT.base h.sound
      obtain ⟨c, hc⟩ := assemble_isSome px.cfg hg px.upstreams (t.inForce.set f.idx f.tools)
      have htop := vet_on_top hbase hi ho hc
      have halone := passesAlone_iff h.sound hi ho
      have hjudged : ∀ b, (b = true ↔ PassesAlone px s.cat f) → ∀ g b', (g, b') ∈ t.judged ++ [(f, b)] →
          g.idx < px.upstreams.length ∧ (b' = true ↔ PassesAlone px s.cat g) := by
        intro b hb g b' hm
        rcases List.mem_append.mp hm with hm | hm
        · exact ⟨hT.range g b' hm, hT.verdicts g b' hm⟩
        · obtain ⟨rfl, rfl⟩ := Prod.mk.inj (List.mem_singleton.mp hm)
          exact ⟨hi, hb⟩
      have hchanged : ∀ b g, g ∈ rest ∨ (∃ b', (g, b') ∈ t.judged ++ [(f, b)]) → Changed s.cat g := by
        rintro b g (hm | ⟨b', hm⟩)
        · exact hT.changed g (Or.inl (hf ▸ List.mem_cons_of_mem f hm))
        · rcases List.mem_append.mp hm with hm | hm
          · exact hT.changed g (Or.inr ⟨b', hm⟩)
          · obtain ⟨rfl, -⟩ := Prod.mk.inj (List.mem_singleton.mp hm)
            exact hT.changed g (Or.inl (hf ▸ List.mem_cons_self))
      rw [hc] at hs
      dsimp only at hs
      split at hs
      · next hv =>
        obtain rfl := Option.some.inj hs
        have hb : true = true ↔ PassesAlone px s.cat f := iff_of_true rfl (halone.mpr (htop.mp hv))
        refine h.setTask ?_ rfl rfl rfl rfl
        refine ⟨hT.current, hrest, ?_, ?_, ?_, fun g b' hm => (hjudged true hb g b' hm).1,
          fun g b' hm => (hjudged true hb g b' hm).2, hchanged true,
          Task.round_judge hl hd hf true (some c) hT.distinct⟩
        · intro hn
          cases hn
        · intro c' hc'
          obtain rfl := Option.some.inj hc'
          exact hbase.set hi ho hc hv
        · rw [Task.done_accept, setAll_snoc, ← hT.inForce]
          exact assemble_listings hc
      · next e hv =>
        obtain rfl := Option.some.inj hs
        have hb : false = true ↔ PassesAlone px s.cat f := by
          refine iff_of_false Bool.false_ne_true fun hp => ?_
          rw [htop.mpr (halone.mp hp)] at hv
          cases hv
        refine h.setTask ?_ rfl rfl rfl rfl
        refine ⟨hT.current, hrest, ?_, hT.sound, ?_, fun g b' hm => (hjudged false hb g b' hm).1,
          fun g b' hm => (hjudged false hb g b' hm).2, hchanged false,
          Task.round_judge hl hd hf false t.accepted hT.distinct⟩
        · rw [Task.done_refuse]
          exact hT.pending
        · rw [Task.done_refuse]
          exact hT.inForce
    · cases hs
  · cases hs

theorem served_finish (h : ServedInv px owner s) (hs : s.finish = some s') : ServedInv px owner s' := by
  unfold State.finish at hs
  split at hs
  · next t ht =>
    have hT := h.task t ht
    split at hs
    · split at hs
      · obtain rfl := Option.some.inj hs
        refine ⟨h.sound, h.family, ?_⟩
        intro t' ht'
        cases ht'
      · next next ha =>
        obtain rfl := Option.some.inj hs
        refine ⟨hT.sound next ha, ?_, ?_⟩
        · dsimp only
          rw [hT.accepted_listings ha, h.family]
          exact (lastAccepted_round s.start t.done s.history).symm
        · intro t' ht'
          cases ht'
    · cases hs
  · cases hs

theorem served_cancel (h : ServedInv px owner s) (hs : s.cancel = some s') : ServedInv px owner s' := by
  unfold State.cancel at hs
  split at hs
  · split at hs
    · obtain rfl := Option.some.inj hs
      refine ⟨h.sound, h.family, ?_⟩
      intro t' ht'
      cases ht'
    · cases hs
  · cases hs

theorem served_announce {idx number : Nat} (h : ServedInv px owner s)
    (hs : s.announce idx number = some s') :
    ServedInv px owner s' := by
  unfold State.announce at hs
  split at hs
  · obtain rfl := Option.some.inj hs
    exact ⟨h.sound, h.family, h.task⟩
  · cases hs

/-- What every step keeps. -/
theorem served_step {l : Label} (h : ServedInv px owner s) (hg : Orderly px owner s l)
    (hs : s.step px l = some s') : ServedInv px owner s' := by
  cases l with
  | change idx =>
    obtain rfl := Option.some.inj hs
    exact ⟨h.sound, h.family, h.task⟩
  | announce idx number => exact served_announce h hs
  | tick ms =>
    obtain rfl := Option.some.inj hs
    exact ⟨h.sound, h.family, h.task⟩
  | begin => exact served_begin h hs
  | request => exact served_request h hs
  | answer page ttl version => exact served_answer h hg hs
  | fail => exact served_fail h hs
  | judge expand => exact served_judge h hg hs
  | finish => exact served_finish h hs
  | cancel => exact served_cancel h hs

theorem served_preserves : (system px).Preserves (Orderly px owner) (ServedInv px owner) :=
  fun _ _ _ h hg hs => served_step h hg hs

theorem served_starts (h : s.Starts px) (ho : OwnedBy owner s.start) : ServedInv px owner s := by
  obtain ⟨expand, ha⟩ := h.assembled
  have hl := assemble_listings ha
  refine ⟨⟨?_, ?_, ⟨expand, ?_⟩, h.vetted⟩, ?_, ?_⟩
  · rw [hl]
    exact h.complete
  · rw [hl]
    exact ho
  · rw [hl]
    exact ha
  · rw [hl, h.history, lastAccepted_nil]
  · intro t ht
    rw [h.idle] at ht
    cases ht

/-- How a round ends: each new listing is served or not by its own verdict, the rest stay. -/
theorem round_served {t : Task} (h : ServedInv px owner s) (ht : s.task = some t) (hs : s.finish = some s')
    (i : Nat) : s'.cat.listings[i]? = (setAll s.cat.listings t.done)[i]? := by
  have hT := h.task t ht
  unfold State.finish at hs
  rw [ht] at hs
  dsimp only at hs
  split at hs
  · split at hs
    · next ha =>
      obtain rfl := Option.some.inj hs
      rw [hT.pending ha]
      rfl
    · next next ha =>
      obtain rfl := Option.some.inj hs
      dsimp only
      rw [hT.accepted_listings ha]
  · cases hs

theorem TaskInv.done_nodup {cat : Catalog} {t : Task} (h : TaskInv px owner cat t) :
    (t.done.map Fresh.idx).Nodup := by
  have hjudged : (t.judged.map fun j => j.1.idx).Nodup := h.distinct.sublist (List.sublist_append_right _ _)
  refine hjudged.sublist ?_
  rw [Task.done, List.map_map]
  exact List.Sublist.map _ List.filter_sublist

/-- At most one verdict for an upstream. -/
theorem TaskInv.unique {cat : Catalog} {t : Task} (h : TaskInv px owner cat t) {f g : Fresh} {b b' : Bool}
    (hf : (f, b) ∈ t.judged) (hg : (g, b') ∈ t.judged) (hi : f.idx = g.idx) : (f, b) = (g, b') := by
  have hjudged : (t.judged.map fun j => j.1.idx).Nodup := h.distinct.sublist (List.sublist_append_right _ _)
  exact List.inj_on_of_nodup_map hjudged hf hg hi

theorem Task.mem_done {t : Task} {f : Fresh} : f ∈ t.done ↔ (f, true) ∈ t.judged := by
  simp [Task.done]

/-- Steps that neither start nor end a round. -/
def inRound : Label → Bool
  | .begin | .finish | .cancel => false
  | _ => true

/-- Within a round the catalog stays, new listings are kept, and no upstream comes back. -/
structure Later (s : State) (t : Task) (s' : State) (t' : Task) : Prop where
  cat : s'.cat = s.cat
  task : s'.task = some t'
  listed : ∀ f, t.Listed f → t'.Listed f
  round : t'.round ⊆ t.round

theorem Later.trans {s'' : State} {t t' t'' : Task} (h : Later s t s' t') (h' : Later s' t' s'' t'') :
    Later s t s'' t'' :=
  ⟨h'.cat.trans h.cat, h'.task, fun f hf => h'.listed f (h.listed f hf), List.Subset.trans h'.round h.round⟩

theorem later_fail {t : Task} (ht : s.task = some t) (hs : s.fail = some s') : ∃ t', Later s t s' t' := by
  unfold State.fail at hs
  rw [ht] at hs
  dsimp only at hs
  split at hs
  · obtain rfl := Option.some.inj hs
    refine ⟨_, rfl, rfl, fun f hf => hf, ?_⟩
    intro k hk
    simp only [Task.round, Option.map_none, Option.toList_none, List.append_nil, List.mem_append] at hk ⊢
    tauto
  · cases hs

theorem later_request {t : Task} (ht : s.task = some t) (hs : s.request = some s') :
    ∃ t', Later s t s' t' := by
  unfold State.request at hs
  rw [ht] at hs
  dsimp only at hs
  split at hs
  · next i rest hl hd =>
    obtain rfl := Option.some.inj hs
    refine ⟨_, rfl, rfl, fun f hf => hf, ?_⟩
    intro k hk
    simp only [Task.round, hl, hd, Option.map_some, Option.toList_some, Option.map_none, Option.toList_none,
      List.append_nil, List.mem_append, List.mem_cons, List.not_mem_nil, or_false] at hk ⊢
    tauto
  · cases hs

theorem later_answer {t : Task} {page : List Json} {ttl : Option Nat} {version : Nat} (ht : s.task = some t)
    (hs : s.answer px page ttl version = some s') : ∃ t', Later s t s' t' := by
  unfold State.answer at hs
  rw [ht] at hs
  dsimp only at hs
  split at hs
  · next i asked hl =>
    split at hs
    · split at hs
      · split at hs
        · obtain rfl := Option.some.inj hs
          refine ⟨_, rfl, rfl, ?_, ?_⟩
          · rintro f (hf | hf)
            · exact Or.inl (List.mem_append_left _ hf)
            · exact Or.inr hf
          · intro k hk
            simp only [Task.round, hl, Option.map_some, Option.toList_some, Option.map_none, Option.toList_none,
              List.append_nil, List.map_append, List.map_cons, List.map_nil, List.mem_append,
              List.mem_singleton] at hk ⊢
            tauto
        · obtain rfl := Option.some.inj hs
          refine ⟨_, rfl, rfl, fun f hf => hf, ?_⟩
          intro k hk
          simp only [Task.round, Option.map_none, Option.toList_none, List.append_nil, List.mem_append] at hk ⊢
          tauto
      · cases hs
    · cases hs
  · cases hs

/-- A listing moves to the verdicts. -/
theorem later_judged {t : Task} {f : Fresh} {rest : List Fresh} (hf : t.fresh = f :: rest) (b : Bool)
    (accepted : Option Catalog) (hc : s'.cat = s.cat)
    (ht' : s'.task = some { t with fresh := rest, accepted := accepted, judged := t.judged ++ [(f, b)] }) :
    ∃ t', Later s t s' t' := by
  refine ⟨_, hc, ht', ?_, ?_⟩
  · rintro g (hg | ⟨b', hg⟩)
    · rw [hf] at hg
      rcases List.mem_cons.mp hg with rfl | hg
      · exact Or.inr ⟨b, List.mem_append_right _ (List.mem_singleton.mpr rfl)⟩
      · exact Or.inl hg
    · exact Or.inr ⟨b', List.mem_append_left _ hg⟩
  · intro k hk
    simp only [Task.round, hf, List.map_append, List.map_cons, List.map_nil, List.mem_append, List.mem_cons,
      List.not_mem_nil, or_false] at hk ⊢
    tauto

theorem later_judge {t : Task} {expand : String → Option String} (ht : s.task = some t)
    (hs : s.judge px expand = some s') : ∃ t', Later s t s' t' := by
  unfold State.judge at hs
  rw [ht] at hs
  dsimp only at hs
  split at hs
  · next f rest hl hd hf =>
    split at hs
    · obtain rfl := Option.some.inj hs
      exact later_judged hf false t.accepted rfl rfl
    · next c _ =>
      split at hs
      · obtain rfl := Option.some.inj hs
        exact later_judged hf true (some c) rfl rfl
      · obtain rfl := Option.some.inj hs
        exact later_judged hf false t.accepted rfl rfl
  · cases hs

theorem later_step {t : Task} {l : Label} (hl : inRound l = true) (ht : s.task = some t)
    (hs : s.step px l = some s') : ∃ t', Later s t s' t' := by
  cases l with
  | change idx =>
    obtain rfl := Option.some.inj hs
    exact ⟨t, rfl, ht, fun f hf => hf, fun k hk => hk⟩
  | announce idx number =>
    simp only [State.step, State.announce] at hs
    split at hs
    · obtain rfl := Option.some.inj hs
      exact ⟨t, rfl, ht, fun f hf => hf, fun k hk => hk⟩
    · cases hs
  | tick ms =>
    obtain rfl := Option.some.inj hs
    exact ⟨t, rfl, ht, fun f hf => hf, fun k hk => hk⟩
  | begin => cases hl
  | request => exact later_request ht hs
  | answer page ttl version => exact later_answer ht hs
  | fail => exact later_fail ht hs
  | judge expand => exact later_judge ht hs
  | finish => cases hl
  | cancel => cases hl

/-- The steps `rest` and the end of the round lead from `s` to `s'`. -/
structure RoundEnds (px : Proxy) (owner : String → Nat) (s : State) (rest : List Label)
    (s' : State) : Prop where
  inside : ∀ l ∈ rest, inRound l = true
  orderly : (system px).Guarded (Orderly px owner) s rest
  ends : (system px).exec s (rest ++ [.finish]) = some s'

/-- The state a round ends in. -/
theorem RoundEnds.last {rest : List Label} {t : Task} (h : ServedInv px owner s) (ht : s.task = some t)
    (hr : RoundEnds px owner s rest s') :
    ∃ u t', ServedInv px owner u ∧ Later s t u t' ∧ u.finish = some s' := by
  obtain ⟨hin, hg, he⟩ := hr
  induction rest generalizing s t with
  | nil =>
    rw [List.nil_append, LTS.exec_cons, Option.bind_eq_some_iff] at he
    obtain ⟨u, hu, hnil⟩ := he
    obtain rfl := Option.some.inj hnil
    exact ⟨s, t, h, ⟨rfl, ht, fun f hf => hf, fun k hk => hk⟩, hu⟩
  | cons l rest ih =>
    rw [List.cons_append, LTS.exec_cons, Option.bind_eq_some_iff] at he
    obtain ⟨u, hu, he⟩ := he
    rw [List.forall_mem_cons] at hin
    obtain ⟨t₁, h₁⟩ := later_step hin.1 ht hu
    obtain ⟨v, t₂, hv, h₂, hfin⟩ := ih (served_step h hg.1 hu) h₁.task hin.2 (hg.2 u hu) he
    exact ⟨v, t₂, hv, h₁.trans h₂, hfin⟩

/-- A new listing is served exactly when it passes alone. -/
theorem RoundEnds.listed {rest : List Label} {t : Task} (h : ServedInv px owner s) (ht : s.task = some t)
    (hr : RoundEnds px owner s rest s') {f : Fresh} (hf : t.Listed f) :
    Changed s.cat f ∧ (PassesAlone px s.cat f → s'.cat.listings[f.idx]? = some f.tools) ∧
      (¬ PassesAlone px s.cat f → s'.cat.listings[f.idx]? = s.cat.listings[f.idx]?) := by
  obtain ⟨u, t', hu, hlater, hfin⟩ := hr.last h ht
  have hT := hu.task t' hlater.task
  rw [round_served hu hlater.task hfin, ← hlater.cat]
  -- when the round ends no listing waits for its verdict
  have hfresh : t'.fresh = [] := by
    unfold State.finish at hfin
    rw [hlater.task] at hfin
    dsimp only at hfin
    split at hfin
    · assumption
    · cases hfin
  obtain hf' | ⟨b, hf'⟩ := hlater.listed f hf
  · rw [hfresh] at hf'
    cases hf'
  · refine ⟨hT.changed f (Or.inr ⟨b, hf'⟩), fun hp => ?_, fun hp => ?_⟩
    · have hb : b = true := (hT.verdicts f b hf').mpr hp
      subst hb
      exact setAll_of_mem t'.done u.cat.listings hT.done_nodup (Task.mem_done.mpr hf')
        (hu.sound.complete ▸ hT.range f true hf')
    · apply setAll_of_ne
      intro g hg hi
      have hj := Task.mem_done.mp hg
      obtain ⟨rfl, rfl⟩ := Prod.mk.inj (hT.unique hj hf' hi)
      exact hp ((hT.verdicts g true hf').mp rfl)

/-- An upstream that is not in the round, or no more, keeps its listing. -/
theorem RoundEnds.stays {rest : List Label} {t : Task} (h : ServedInv px owner s) (ht : s.task = some t)
    (hr : RoundEnds px owner s rest s') {i : Nat} (hi : i ∉ t.round) :
    s'.cat.listings[i]? = s.cat.listings[i]? := by
  obtain ⟨u, t', hu, hlater, hfin⟩ := hr.last h ht
  rw [round_served hu hlater.task hfin, ← hlater.cat]
  apply setAll_of_ne
  rintro f hf rfl
  apply hi
  apply hlater.round
  have hj : f.idx ∈ t'.judged.map fun j => j.1.idx :=
    List.mem_map.mpr ⟨(f, true), Task.mem_done.mp hf, rfl⟩
  exact List.mem_append_right _ hj

/-- An upstream whose listing failed is out of the round. -/
theorem failed_out {t : Task} {i asked : Nat} (h : ServedInv px owner s) (ht : s.task = some t)
    (hl : t.listing = some (i, asked)) (hs : s.fail = some s') :
    s'.cat = s.cat ∧ ∃ t', s'.task = some t' ∧ i ∉ t'.round := by
  have hround := (h.task t ht).distinct
  unfold State.fail at hs
  rw [ht] at hs
  dsimp only at hs
  rw [hl] at hs
  obtain rfl := Option.some.inj hs
  refine ⟨rfl, _, rfl, ?_⟩
  simp only [Task.round, hl, Option.map_some, Option.toList_some, Option.map_none, Option.toList_none,
    List.append_nil, List.append_assoc, List.singleton_append] at hround ⊢
  exact (List.nodup_middle.mp hround).notMem

end Steps

/-- **The catalog served.** In every run in which header secrets resolve and an upstream lists
ids of its own, the catalog served is the one assembled from the listings accepted last, and
it passes the checks. Whatever else comes in a round, a new listing is in force at its end
exactly when it passes alone; otherwise, or when the listing failed, the upstream keeps the
one it had. -/
theorem served_catalog (px : Proxy) (owner : String → Nat) (s₀ s : State) (ls : List Label)
    (h₀ : s₀.Starts px) (ho : OwnedBy owner s₀.start) (hg : (system px).Guarded (Orderly px owner) s₀ ls)
    (hs : (system px).exec s₀ ls = some s) :
    (∃ expand, assemble px.cfg expand px.upstreams (lastAccepted s.start s.history) = some s.cat) ∧
      vet px.cfg px.upstreams px.lowercase s.cat = .ok () ∧
      (∀ t f rest s', s.task = some t → t.Listed f → RoundEnds px owner s rest s' →
        Changed s.cat f ∧ (PassesAlone px s.cat f → s'.cat.listings[f.idx]? = some f.tools) ∧
          (¬ PassesAlone px s.cat f → s'.cat.listings[f.idx]? = s.cat.listings[f.idx]?)) ∧
      ∀ t i asked s₁ rest s', s.task = some t → t.listing = some (i, asked) → s.fail = some s₁ →
        RoundEnds px owner s₁ rest s' → s'.cat.listings[i]? = s.cat.listings[i]? := by
  have h : ServedInv px owner s := served_preserves.exec (served_starts h₀ ho) hg hs
  refine ⟨?_, h.sound.vetted, ?_, ?_⟩
  · obtain ⟨expand, ha⟩ := h.sound.assembled
    exact ⟨expand, h.family ▸ ha⟩
  · intro t f rest s' ht hf hr
    exact hr.listed h ht hf
  · intro t i asked s₁ rest s' ht hl hf hr
    obtain ⟨hcat, t₁, ht₁, hi⟩ := failed_out h ht hl hf
    rw [hr.stays (served_fail h hf) ht₁ hi, hcat]

/-! ## A refused listing beside an accepted one -/

def twoUpstreams : Proxy where
  cfg := ⟨.threeTool, ⟨[], []⟩, ⟨[], false⟩, .weak, .strict, []⟩
  upstreams := [⟨"a", fun _ => none⟩, ⟨"b", fun _ => none⟩]
  lowercase := id

def firstLetter (id : String) : Nat := if id.toList.head? = some 'a' then 0 else 1

def tool (name description : String) : Json := .obj [("name", .str name), ("description", .str description)]

def oldTools : List (List ToolDef) :=
  [[tool "a_tool" "List a things."].map (toolDef "a" 0), [tool "b_tool" "List b things."].map (toolDef "b" 1)]

def oldCatalog : Option Catalog := assemble twoUpstreams.cfg some twoUpstreams.upstreams oldTools

def twoStart : State := { oneStart with
  cat := oldCatalog.getD ⟨[], [], [], [], [], [], [], []⟩
  start := oldTools }

def bothListed : List Label :=
  [.change 0, .announce 0 1, .change 1, .announce 1 1, .begin,
    .request, .answer [tool "sneaky" "Lists things.\u200b"] none 1,
    .request, .answer [tool "b_new" "Archive b things."] none 1]

theorem firstLetter_listed {i : Nat} {up : Backend} (h : twoUpstreams.upstreams[i]? = some up)
    (listed : List Json) : ∀ d ∈ listed.map (toolDef up.name i), firstLetter d.id = i := by
  intro d hd
  obtain ⟨t, -, rfl⟩ := List.mem_map.mp hd
  match i with
  | 0 =>
    obtain rfl := Option.some.inj h
    simp [toolDef, toolId, firstLetter]
  | 1 =>
    obtain rfl := Option.some.inj h
    simp [toolDef, toolId, firstLetter]
  | i + 2 => cases h

theorem twoStart_owned : OwnedBy firstLetter twoStart.start := by
  intro i ts hts
  match i with
  | 0 =>
    obtain rfl := Option.some.inj hts
    exact firstLetter_listed (i := 0) rfl _
  | 1 =>
    obtain rfl := Option.some.inj hts
    exact firstLetter_listed (i := 1) rfl _
  | i + 2 => cases hts

theorem twoStart_starts : twoStart.Starts twoUpstreams where
  listed i up ts hup hts := by
    match i with
    | 0 =>
      obtain rfl := Option.some.inj hup
      obtain rfl := Option.some.inj hts
      exact listed_toolDefs "a" 0 _
    | 1 =>
      obtain rfl := Option.some.inj hup
      obtain rfl := Option.some.inj hts
      exact listed_toolDefs "b" 1 _
    | i + 2 => cases hup
  complete := rfl
  assembled := by
    have hs : oldCatalog.isSome = true := by decide +kernel
    obtain ⟨cat, hcat⟩ := Option.isSome_iff_exists.mp hs
    refine ⟨some, ?_⟩
    unfold twoStart
    rw [hcat, Option.getD_some]
    exact hcat
  vetted := by
    rw [vet_ok_iff]
    refine ⟨fun o ho => ?_, fun _ => ?_⟩
    · cases ho.1
    · have h : ∀ t ∈ twoStart.cat.tools, poisoning id t.name t.description = [] := by decide +kernel
      exact h
  idle := rfl
  served _ := Or.inl (Nat.le_refl 0)
  reached _ := Nat.le_refl 0
  history := rfl

theorem orderly_total {s : State} {l : Label} (h : ∀ expand, l = .judge expand → expand = some) :
    Orderly twoUpstreams firstLetter s l := by
  cases l with
  | judge expand =>
    obtain rfl := h expand rfl
    intro v
    rfl
  | answer listed ttl version =>
    intro t i asked up _ _ hup
    exact firstLetter_listed hup listed
  | _ => trivial

/-- Of two new listings one is poisoned: the other is served. -/
theorem refused_beside_accepted :
    ∃ s s', (system twoUpstreams).exec twoStart bothListed = some s ∧
      RoundEnds twoUpstreams firstLetter s [.judge some, .judge some] s' ∧
      s'.cat.listings.map (fun l => l.map ToolDef.id) = [["a.a_tool"], ["b.b_new"]] ∧
      vet twoUpstreams.cfg twoUpstreams.upstreams twoUpstreams.lowercase s.cat = .ok () ∧
      ∀ t f, s.task = some t → t.Listed f →
        Changed s.cat f ∧ (PassesAlone twoUpstreams s.cat f → s'.cat.listings[f.idx]? = some f.tools) ∧
          (¬ PassesAlone twoUpstreams s.cat f → s'.cat.listings[f.idx]? = s.cat.listings[f.idx]?) := by
  have hr : ((system twoUpstreams).exec twoStart (bothListed ++ [.judge some, .judge some, .finish])).map
      (fun s => s.cat.listings.map fun l => l.map ToolDef.id) = some [["a.a_tool"], ["b.b_new"]] := by
    decide +kernel
  obtain ⟨s', hs', hids⟩ := Option.map_eq_some_iff.mp hr
  rw [LTS.exec_append, Option.bind_eq_some_iff] at hs'
  obtain ⟨s, hs, hs'⟩ := hs'
  have hends : RoundEnds twoUpstreams firstLetter s [.judge some, .judge some] s' := by
    refine ⟨by simp [inRound], LTS.guarded_of_forall ?_ s, hs'⟩
    intro l hl u
    apply orderly_total
    rintro expand rfl
    simpa using hl
  have hg : (system twoUpstreams).Guarded (Orderly twoUpstreams firstLetter) twoStart bothListed := by
    apply LTS.guarded_of_forall
    intro l hl u
    apply orderly_total
    rintro expand rfl
    simp [bothListed] at hl
  obtain ⟨-, hv, hround, -⟩ :=
    served_catalog twoUpstreams firstLetter twoStart s bothListed twoStart_starts twoStart_owned hg hs
  refine ⟨s, s', hs, hends, hids, hv, ?_⟩
  intro t f ht hf
  exact hround t f [.judge some, .judge some] s' ht hf hends

end MinMcp.L5.Reindex
