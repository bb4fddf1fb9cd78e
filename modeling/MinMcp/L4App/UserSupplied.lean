import MinMcp.L4App.Preflight
import MinMcp.L4App.Paginate

/-!
# Fields the agent cannot choose

`Surface::dispatch_reach` (src/surface/dispatch.rs:66-160, 259-272) up to the
calls it makes: defaults, decoding of stringified objects, injection of the
`user_supplied` values, pre-flight, cache, breaker, the call, and the calls for
further pages. What is not the program's (the rate limiter and the breaker, the
cache, the upstream's answers) is in `Surroundings`.

`project::set` does nothing when a value on the way to the field is no object, and
nobody notices, so the call goes out without the field.

Results:
* `Enforced`: whatever the surroundings do, every call that goes out holds every
  configured value at its path.
* `enforced_iff`: this is so **iff** a source is missing, pre-flight refuses, or
  every field can be written into the shaped arguments, the paths are compatible,
  and no page cursor overwrites a field.
* `null_body_not_enforced`: `{"body": null}` sends the call without
  `body.account_id`.
-/
namespace MinMcp.L4.UserSupplied

open MinMcp.Core MinMcp.L2 MinMcp.L4.Preflight MinMcp.L4.Results MinMcp.L4.Pages

structure Overlay where
  defaults : List (String × Json)
  preflight : Option Bool
  paginate : Option Paginate

/-- What a dispatch reads about its tool. `userSupplied` is the catalog's list of
paths and sources.
mirrors src/surface/dispatch.rs:45-87, src/surface/catalog.rs:52-55 -/
structure Tool where
  overlay : Option Overlay
  globalPreflight : Bool
  schema : Json
  userSupplied : List (String × String)
  fromSpec : Bool

/-- One dispatch's surroundings: the refusal of the visibility and rate checks, the
cached result, the breaker's refusal, the answers to the calls. -/
structure Surroundings where
  refusedAtGate : Option Json
  cached : Option Json
  breakerBlocks : Option Json
  reply : Nat → Option Json

/-- The arguments of the calls that go out, and the local refusal, if any. -/
structure Dispatched where
  sent : List Json
  refusal : Option Json

/-- mirrors src/surface/dispatch.rs:72-76 -/
def applyDefaults (t : Tool) (args : Json) : Json :=
  ((t.overlay.map Overlay.defaults).getD []).foldl
    (fun a d => Project.setDefault a d.1 d.2) args

/-- mirrors src/surface/dispatch.rs:77-91 -/
def preflightSchema (t : Tool) : Option Json :=
  if ((t.overlay.bind Overlay.preflight).getD t.globalPreflight) then some t.schema else none

/-- The arguments before the injection.
mirrors src/surface/dispatch.rs:72-94 -/
def shape (t : Tool) (args : Json) : Json :=
  match preflightSchema t with
  | some schema => decodeStringified schema (applyDefaults t args)
  | none => applyDefaults t args

/-- mirrors src/surface/dispatch.rs:118-125 -/
def missingResult (path source : String) : Json :=
  textResult ("USER_SUPPLIED_MISSING: " ++ (Json.obj [
    ("error", .str "missing_user_supplied_value"), ("field", .str path), ("source", .str source),
    ("fix", .str ("this value comes from the session/environment, not the agent; " ++
      "it is not available"))]).render) true

/-- mirrors src/surface/dispatch.rs:109-128 -/
def inject (resolve : String → Option String) : List (String × String) → Json → Except Json Json
  | [], args => .ok args
  | (path, source) :: us, args =>
    match resolve source with
    | some v => inject resolve us (Project.set args path (.str v))
    | none => .error (missingResult path source)

/-- mirrors src/surface/dispatch.rs:129-144 -/
def preflightRefusal (t : Tool) (args : Json) : Option Json :=
  (preflightSchema t).bind fun schema => preflightError schema args

/-- The calls for further pages, after the answer `first`.
mirrors src/surface/dispatch.rs:259-272 -/
def pageCalls (t : Tool) (reply : Nat → Option Json) (args : Json) (first : Option Json) : List Json :=
  match t.overlay.bind Overlay.paginate, first with
  | some p, some r => if isErrorResult r then [] else (followUps p t.fromSpec reply args r).sent
  | _, _ => []

/-- mirrors src/surface/dispatch.rs:48-272 -/
def dispatchReach (t : Tool) (resolve : String → Option String) (env : Surroundings) (args : Json) :
    Dispatched :=
  match env.refusedAtGate with
  | some r => ⟨[], some r⟩
  | none =>
    match inject resolve t.userSupplied (shape t args) with
    | .error r => ⟨[], some r⟩
    | .ok args =>
      match preflightRefusal t args with
      | some se => ⟨[], some (textResult ("PREFLIGHT_ERROR: " ++ se.render) true)⟩
      | none =>
        match env.cached with
        | some _ => ⟨[], none⟩
        | none =>
          match env.breakerBlocks with
          | some r => ⟨[], some r⟩
          | none => ⟨args :: pageCalls t env.reply args (env.reply 0), none⟩

/-! ## Specification -/

/-- Every call that goes out holds, at the path of every `user_supplied` field, the
value of the field's source. -/
def Enforced (t : Tool) (resolve : String → Option String) (args : Json) : Prop :=
  ∀ env, ∀ req ∈ (dispatchReach t resolve env args).sent, ∀ u ∈ t.userSupplied,
    ∃ v, resolve u.2 = some v ∧ req.getAt (Project.parsePath u.1) = some (.str v)

/-- The writes of the injection, once every source has a value. -/
def writes (t : Tool) (resolve : String → Option String) : Project.Writes :=
  t.userSupplied.map fun u => (Project.parsePath u.1, (resolve u.2).getD "")

/-- A cursor written for the next page leaves every field as it is: its path `into`
is empty, or no field lies at or below it, or the cursor holds the field's value
there. Quantified over every answer that names a next page. -/
def CursorSafe (t : Tool) (ws : Project.Writes) : Prop :=
  ∀ p, t.overlay.bind Overlay.paginate = some p → 1 < p.maxPages →
    ∀ r c, isErrorResult r = false → gateClosed p (resultPayload r t.fromSpec) = false →
      nextCursor p (resultPayload r t.fromSpec) = some c →
      Project.parsePath p.into ≠ [] →
      ∀ w ∈ ws, ∀ rest, w.1 = Project.parsePath p.into ++ rest → c.getAt rest = some (.str w.2)

/-- The condition on the tool, the sources and the arguments. -/
def Placed (t : Tool) (resolve : String → Option String) (args : Json) : Prop :=
  (∃ u ∈ t.userSupplied, resolve u.2 = none) ∨
  (preflightRefusal t (Project.setAll (shape t args) (writes t resolve))).isSome ∨
  ((∀ w ∈ writes t resolve, Project.Fits (shape t args) w) ∧
    Project.Compatible (writes t resolve) ∧ CursorSafe t (writes t resolve))

/-! ## Injection -/

theorem inject_error {resolve : String → Option String} {us : List (String × String)}
    (h : ∃ u ∈ us, resolve u.2 = none) (args : Json) : ∃ r, inject resolve us args = .error r := by
  induction us generalizing args with
  | nil => obtain ⟨u, hu, -⟩ := h; cases hu
  | cons u us ih =>
    obtain ⟨path, source⟩ := u
    unfold inject
    split
    · next v hv =>
      apply ih
      obtain ⟨w, hw, hn⟩ := h
      rcases List.mem_cons.mp hw with rfl | hw
      · rw [hv] at hn; cases hn
      · exact ⟨w, hw, hn⟩
    · exact ⟨_, rfl⟩

theorem inject_ok {resolve : String → Option String} {us : List (String × String)}
    (h : ∀ u ∈ us, resolve u.2 ≠ none) (args : Json) :
    inject resolve us args = .ok (Project.setAll args
      (us.map fun u => (Project.parsePath u.1, (resolve u.2).getD ""))) := by
  induction us generalizing args with
  | nil => rfl
  | cons u us ih =>
    obtain ⟨path, source⟩ := u
    obtain ⟨v, hv⟩ := Option.ne_none_iff_exists'.mp (h _ List.mem_cons_self)
    have hv' : resolve source = some v := hv
    rw [inject, hv', List.map_cons, Project.setAll_cons]
    simp only [hv', Option.getD_some]
    exact ih (fun u hu => h u (List.mem_cons_of_mem _ hu)) _

/-! ## Further pages -/

/-- Every write is still in place. -/
def Holds (ws : Project.Writes) (args : Json) : Prop := ∀ w ∈ ws, args.getAt w.1 = some (.str w.2)

/-- One page step: writing a safe cursor keeps every field. -/
theorem holds_set_cursor {ws : Project.Writes} {args c : Json} {into : String} (h : Holds ws args)
    (hc : Project.parsePath into ≠ [] → ∀ w ∈ ws, ∀ rest, w.1 = Project.parsePath into ++ rest →
      c.getAt rest = some (.str w.2)) : Holds ws (Project.set args into c) := by
  intro w hw
  have hv := h w hw
  unfold Project.set
  by_cases hi : Project.parsePath into = []
  · rw [hi, Project.setAt_nil]; exact hv
  · rw [Project.setAt_eq_put hi]
    by_cases hp : Project.parsePath into <+: w.1
    · obtain ⟨rest, hrest⟩ := hp
      have hpl : args.Placeable (Project.parsePath into) :=
        Json.placeable_of_append (hrest ▸ Json.placeable_of_getAt hv)
      rw [← hrest, Json.getAt_put_append hpl]
      exact hc hi w hw rest hrest.symm
    · by_cases hq : w.1 <+: Project.parsePath into
      · obtain ⟨rest, hrest⟩ := hq
        cases rest with
        | nil => exact absurd ⟨[], by rw [← hrest]; simp⟩ hp
        | cons k ks => rw [← hrest]; exact Json.getAt_put_below hv (Project.str_ne_obj _) k ks c
      · rw [Json.getAt_put_of_incomparable hp hq]; exact hv

/-- A cursor that the tool's answer can name. -/
def IsCursor (t : Tool) (p : Paginate) (c : Json) : Prop :=
  ∃ r, isErrorResult r = false ∧ gateClosed p (resultPayload r t.fromSpec) = false ∧
    nextCursor p (resultPayload r t.fromSpec) = some c

/-- What the write of a cursor keeps holds of every call of the page loop. -/
theorem loop_keeps {t : Tool} {p : Paginate} {Q : Json → Prop}
    (hQ : ∀ a c, IsCursor t p c → Q a → Q (Project.set a p.into c))
    (reply : Nat → Option Json) (n : Nat) (s : PageState) (hs : Q s.args)
    (hr : ∃ r, isErrorResult r = false ∧ s.payload = resultPayload r t.fromSpec) :
    ∀ req ∈ (loop p t.fromSpec reply n s).sent, Q req := by
  induction n generalizing s with
  | zero => intro req h; cases h
  | succ n ih =>
    obtain ⟨r, hre, hrp⟩ := hr
    unfold loop
    split
    · intro req h; cases h
    · next hg =>
      split
      · intro req h; cases h
      · next c hcur =>
        split
        · intro req h; cases h
        · have hset : Q (Project.set s.args p.into c) :=
            hQ _ _ ⟨r, hre, by rw [← hrp]; simpa using hg, by rw [← hrp]; exact hcur⟩ hs
          have hone : ∀ req ∈ [Project.set s.args p.into c], Q req := fun req h =>
            List.mem_singleton.mp h ▸ hset
          simp only []
          split
          · exact hone
          · next nextPage hnext =>
            split
            · exact hone
            · next herr =>
              split
              · exact hone
              · intro req h
                rcases List.mem_cons.mp h with rfl | h
                · exact hset
                · exact ih _ hset ⟨nextPage, by simpa using herr, rfl⟩ req h

/-! ## What is sent -/

/-- The call is not sent: a source has no value, or pre-flight refuses. -/
def Unsent (t : Tool) (resolve : String → Option String) (args : Json) : Prop :=
  (∃ u ∈ t.userSupplied, resolve u.2 = none) ∨
    (preflightRefusal t (Project.setAll (shape t args) (writes t resolve))).isSome

/-- The arguments of the first call. -/
def firstCall (t : Tool) (resolve : String → Option String) (args : Json) : Json :=
  Project.setAll (shape t args) (writes t resolve)

/-- A call that gets past the local checks, to an upstream that answers with `reply`. -/
def openEnv (reply : Nat → Option Json) : Surroundings := ⟨none, none, none, reply⟩

section Sent

variable {t : Tool} {resolve : String → Option String} {args : Json}

theorem sent_of_unsent (h : Unsent t resolve args) (env : Surroundings) :
    (dispatchReach t resolve env args).sent = [] := by
  unfold dispatchReach
  split
  · rfl
  · by_cases hr : ∃ u ∈ t.userSupplied, resolve u.2 = none
    · obtain ⟨e, he⟩ := inject_error hr (shape t args)
      rw [he]
    · have hres : ∀ u ∈ t.userSupplied, resolve u.2 ≠ none := fun u hu hn => hr ⟨u, hu, hn⟩
      obtain ⟨se, hse⟩ := Option.isSome_iff_exists.mp (h.resolve_left hr)
      rw [inject_ok hres, ← writes]
      simp only [hse]

/-- Every call is the first one, or one for a further page. -/
theorem sent_keeps {Q : Json → Prop} (h : Q (firstCall t resolve args))
    (hQ : ∀ p, t.overlay.bind Overlay.paginate = some p → 1 < p.maxPages →
      ∀ a c, IsCursor t p c → Q a → Q (Project.set a p.into c)) (env : Surroundings) :
    ∀ req ∈ (dispatchReach t resolve env args).sent, Q req := by
  intro req hreq
  by_cases hr : ∃ u ∈ t.userSupplied, resolve u.2 = none
  · rw [sent_of_unsent (Or.inl hr)] at hreq
    cases hreq
  have hres : ∀ u ∈ t.userSupplied, resolve u.2 ≠ none := fun u hu hn => hr ⟨u, hu, hn⟩
  unfold dispatchReach at hreq
  rw [inject_ok hres, ← writes] at hreq
  split at hreq
  · cases hreq
  · simp only [] at hreq
    split at hreq
    · cases hreq
    · split at hreq
      · cases hreq
      · split at hreq
        · cases hreq
        · rcases List.mem_cons.mp hreq with rfl | hreq
          · exact h
          · unfold pageCalls at hreq
            split at hreq
            · next p r hpag _ =>
              split at hreq
              · cases hreq
              · next herr =>
                unfold followUps at hreq
                by_cases hmax : 1 < p.maxPages
                · exact loop_keeps (hQ p hpag hmax) env.reply _ _ h ⟨r, by simpa using herr, rfl⟩ req hreq
                · rw [show p.maxPages - 1 = 0 by omega] at hreq
                  cases hreq
            · cases hreq

theorem sent_open (h : ¬ Unsent t resolve args) (reply : Nat → Option Json) :
    (dispatchReach t resolve (openEnv reply) args).sent =
      firstCall t resolve args :: pageCalls t reply (firstCall t resolve args) (reply 0) := by
  obtain ⟨hr, hp⟩ := not_or.mp h
  have hres : ∀ u ∈ t.userSupplied, resolve u.2 ≠ none := fun u hu hn => hr ⟨u, hu, hn⟩
  rw [Option.not_isSome_iff_eq_none] at hp
  unfold dispatchReach openEnv
  rw [inject_ok hres, ← writes]
  simp only [hp]
  rfl

theorem first_sent (h : ¬ Unsent t resolve args) :
    ∃ env, firstCall t resolve args ∈ (dispatchReach t resolve env args).sent :=
  ⟨openEnv fun _ => none, by rw [sent_open h]; exact List.mem_cons_self⟩

/-- The upstream answers the first call with the page that names the cursor, and the
next call fails. -/
theorem second_sent (h : ¬ Unsent t resolve args) {p : Paginate}
    (hp : t.overlay.bind Overlay.paginate = some p) (hmax : 1 < p.maxPages) {c : Json} (hc : IsCursor t p c) :
    ∃ env, Project.set (firstCall t resolve args) p.into c ∈ (dispatchReach t resolve env args).sent := by
  obtain ⟨r, herr, hgate, hcur⟩ := hc
  refine ⟨openEnv fun n => if n = 0 then some r else none, ?_⟩
  rw [sent_open h]
  apply List.mem_cons_of_mem
  unfold pageCalls followUps
  rw [hp]
  simp only [if_true, herr, Bool.false_eq_true, if_false]
  rw [show p.maxPages - 1 = (p.maxPages - 2) + 1 by omega]
  unfold loop
  simp [start, hgate, hcur, isRepeated]

end Sent

/-! ## Enforcement -/

theorem enforced_of_placed {t : Tool} {resolve : String → Option String} {args : Json}
    (hf : ∀ w ∈ writes t resolve, Project.Fits (shape t args) w)
    (hcomp : Project.Compatible (writes t resolve)) (hcs : CursorSafe t (writes t resolve)) :
    ∀ env, ∀ req ∈ (dispatchReach t resolve env args).sent, Holds (writes t resolve) req := by
  have hfirst : Holds (writes t resolve) (firstCall t resolve args) :=
    (Project.setAll_holds_iff _ _).mpr ⟨hf, hcomp⟩
  refine sent_keeps hfirst fun p hpag hmax a c hc ha => ?_
  obtain ⟨r, herr, hgate, hcur⟩ := hc
  exact holds_set_cursor ha (hcs p hpag hmax r c herr hgate hcur)

/-- **Enforcement.** Whatever the surroundings answer, every call that goes out
holds every configured value at its path, iff a source has no value, pre-flight
refuses the call, or every field can be written into the shaped arguments, no path
leads through another, and no page cursor overwrites a field. -/
theorem enforced_iff (t : Tool) (resolve : String → Option String) (args : Json) :
    Enforced t resolve args ↔ Placed t resolve args := by
  by_cases hu : Unsent t resolve args
  · refine iff_of_true (fun env req hreq => ?_) (hu.imp_right Or.inl)
    rw [sent_of_unsent hu] at hreq
    cases hreq
  obtain ⟨hr, hp⟩ := not_or.mp hu
  have hres : ∀ u ∈ t.userSupplied, resolve u.2 ≠ none := fun u hu hn => hr ⟨u, hu, hn⟩
  have hholds : ∀ req, Holds (writes t resolve) req ↔ ∀ u ∈ t.userSupplied,
      ∃ v, resolve u.2 = some v ∧ req.getAt (Project.parsePath u.1) = some (.str v) := fun req => by
    simp only [Holds, writes, List.mem_map, forall_exists_index, and_imp, forall_apply_eq_imp_iff₂]
    refine forall₂_congr fun u hu => ?_
    obtain ⟨v, hv⟩ := Option.ne_none_iff_exists'.mp (hres u hu)
    simp [hv]
  constructor
  · intro h
    have hall : ∀ env, ∀ req ∈ (dispatchReach t resolve env args).sent, Holds (writes t resolve) req :=
      fun env req hreq => (hholds req).mpr (h env req hreq)
    obtain ⟨env, henv⟩ := first_sent hu
    have hfirst := hall env _ henv
    obtain ⟨hf, hcomp⟩ := (Project.setAll_holds_iff _ _).mp hfirst
    refine Or.inr (Or.inr ⟨hf, hcomp, ?_⟩)
    intro p hpag hmax r c herr hgate hcur hinto w hw rest hrest
    obtain ⟨env, henv⟩ := second_sent hu hpag hmax ⟨r, herr, hgate, hcur⟩
    have hv := hall env _ henv w hw
    have hpl : (firstCall t resolve args).Placeable (Project.parsePath p.into) :=
      Json.placeable_of_append (hrest ▸ Json.placeable_of_getAt (hfirst w hw))
    rw [Project.set, Project.setAt_eq_put hinto, hrest, Json.getAt_put_append hpl] at hv
    exact hv
  · rintro (h | h | ⟨hf, hcomp, hcs⟩)
    · exact absurd h hr
    · exact absurd h hp
    · exact fun env req hreq => (hholds req).mp (enforced_of_placed hf hcomp hcs env req hreq)

/-- A tool whose overlay takes `body.account_id` from the environment. -/
def accountTool : Tool where
  overlay := some ⟨[], none, none⟩
  globalPreflight := true
  schema := .obj [("type", .str "object"), ("properties", .obj [("body", .obj [("type", .str "object"),
    ("properties", .obj [("amount", .obj [("type", .str "integer")])])])])]
  userSupplied := [("body.account_id", "env:ACCOUNT_ID")]
  fromSpec := true

/-- The agent sends `{"body": null}`: pre-flight passes, the write does nothing, and
the call goes out without the account. -/
theorem null_body_not_enforced :
    ¬ Enforced accountTool (fun _ => some "acct_1") (.obj [("body", .null)]) := by
  intro h
  have hsent : (dispatchReach accountTool (fun _ => some "acct_1") (openEnv fun _ => none)
      (.obj [("body", .null)])).sent = [.obj [("body", .null)]] := by decide +kernel
  obtain ⟨v, hv, hat⟩ := h (openEnv fun _ => none) (.obj [("body", .null)]) (by rw [hsent]; simp)
    ("body.account_id", "env:ACCOUNT_ID") (by simp [accountTool])
  have hpath : Project.parsePath "body.account_id" = ["body", "account_id"] := by decide +kernel
  rw [hpath] at hat
  cases hat

end MinMcp.L4.UserSupplied
