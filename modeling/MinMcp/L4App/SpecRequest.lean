import MinMcp.L3Protocol.ExecutePath
import MinMcp.L4App.QueryWire
import MinMcp.L4App.SpecBody
import MinMcp.L4App.UserSupplied

/-!
# What a spec upstream is sent

The arguments of a call hold `path_params`, `query_params` and a `body` (src/backend.rs:269-272). The
executor writes the first into the path of the operation, the second into the query string, and
encodes the third (src/exec.rs:206-286). The headers are in `L3.RequestHeaders`.

* `execute`: the request that goes out, or the error for a path parameter that is missing.
* `carries_of_getAt`: where a text of the arguments stands in the request.
* `placed_on_the_wire`: where the values that dispatch places stand in it.
-/
namespace MinMcp.L4.OpenApi

open MinMcp.Core MinMcp.Core.Text
open MinMcp.L3.ExecutePath (NoForeignMatch filled requestPath requestPath_ok requestUrl segmentFor
  segmentOf stage_iff trimEndSlashes)
open MinMcp.L4.UserSupplied (Enforced Surroundings dispatchReach)

structure Request where
  method : String
  url : List Char
  query : List (String × String)
  body : Option Sent

section Execute

variable (baseUrl : List Char) (root : Json) (opId : String) (op : Operation)

/-- mirrors src/backend.rs:269-271 -/
def part (args : Json) (name : String) : Json := (args.get name).getD (.obj [])

/-- mirrors src/exec.rs:264-273 -/
def queryPairs (q : Json) : List (String × String) :=
  (q.asObject.getD []).flatMap fun e =>
    serializeQuery e.1 e.2 (((queryStyles root op).lookup e.1).getD (defaultQueryStyle (swagger2 root)))

/-- The fields that the path is made of. -/
def Operation.template : L3.ExecutePath.Operation := ⟨opId, op.path.toList⟩

/-- mirrors src/exec.rs:206-286 -/
def execute (args : Json) : Except Json Request :=
  (requestUrl baseUrl (op.template opId) (part args "path_params")).map fun url =>
    { method := op.method.toUpper
      url := url
      query := queryPairs root op (part args "query_params")
      body := encodeBody op (part args "body") }

end Execute

/-! ## Where a text stands -/

variable {baseUrl : List Char} {root args : Json} {opId : String} {op : Operation} {r : Request}

theorem getAt_part {name : String} {path : List String} {v : Json} (h : args.getAt (name :: path) = some v) :
    (part args name).getAt path = some v := by
  cases args with
  | obj es =>
    rw [Json.getAt_obj, Option.bind_eq_some_iff] at h
    obtain ⟨c, hc, h⟩ := h
    rwa [part, show (Json.obj es).get name = some c from hc, Option.getD_some]
  | _ => cases h

/-- The key of a value in a form, by the key of the value it is in. -/
def formKey : String → List String → String
  | key, [] => key
  | key, k :: ks => formKey (if key = "" then k else key ++ "[" ++ k ++ "]") ks

theorem mem_flattenEntries {key k : String} {v : Json} {es : List (String × Json)} {p : String × String}
    (h : (k, v) ∈ es) (hp : p ∈ flattenForm (if key = "" then k else key ++ "[" ++ k ++ "]") v) :
    p ∈ flattenEntries key es := by
  induction es with
  | nil => cases h
  | cons e es ih =>
    obtain ⟨k', v'⟩ := e
    rw [flattenEntries, List.mem_append]
    rcases List.mem_cons.mp h with he | h
    · obtain ⟨rfl, rfl⟩ := Prod.mk.inj he
      exact Or.inl hp
    · exact Or.inr (ih h)

theorem mem_flattenForm {v : Json} {ks : List String} {s : String} (h : v.getAt ks = some (.str s))
    (key : String) : (formKey key ks, s) ∈ flattenForm key v := by
  induction ks generalizing v key with
  | nil =>
    rw [Json.getAt_nil, Option.some.injEq] at h
    rw [h]
    exact List.mem_singleton.mpr rfl
  | cons k ks ih =>
    cases v with
    | obj es =>
      rw [Json.getAt_obj, Option.bind_eq_some_iff] at h
      obtain ⟨c, hc, h⟩ := h
      exact mem_flattenEntries (OrderedMap.mem_of_lookup hc) (ih h _)
    | _ => cases h

theorem mem_queryPairs {q : Json} {name s : String} (h : q.getAt [name] = some (.str s)) :
    (name, s) ∈ queryPairs root op q := by
  cases q with
  | obj es =>
    rw [Json.getAt_obj, Option.bind_eq_some_iff] at h
    obtain ⟨c, hc, h⟩ := h
    rw [Json.getAt_nil, Option.some.injEq] at h
    subst h
    exact List.mem_flatMap.mpr ⟨_, OrderedMap.mem_of_lookup hc, List.mem_singleton.mpr rfl⟩
  | _ => cases h

def Sent.Holds : Sent → List String → String → Prop
  | .json body, path, s => body.getAt path = some (.str s)
  | .form pairs, path, s => (formKey "" path, s) ∈ pairs

theorem holds_encodeBody {body : Json} {k : String} {ks : List String} {s : String}
    (h : body.getAt (k :: ks) = some (.str s)) :
    ∃ sent, encodeBody op body = some sent ∧ sent.Holds (k :: ks) s := by
  have hbody : hasBody body = true := by
    cases body with
    | obj es =>
      cases es with
      | nil => cases h
      | cons e es => rfl
    | _ => cases h
  unfold encodeBody
  rw [if_pos hbody]
  dsimp only
  split
  · exact ⟨_, rfl, h⟩
  · exact ⟨_, rfl, mem_flattenForm h ""⟩

/-- The loop of the executor fills the placeholders, where no key matches anything else. -/
theorem url_eq {pathParams : Json} {url : List Char} (hf : NoForeignMatch (op.template opId) pathParams)
    (h : requestUrl baseUrl (op.template opId) pathParams = .ok url) :
    url = trimEndSlashes baseUrl ++ render (filled op.path.toList (L3.ExecutePath.entries pathParams)) := by
  unfold requestUrl at h
  cases hp : requestPath (op.template opId) pathParams with
  | error e => rw [hp] at h; cases h
  | ok path =>
    rw [hp] at h
    obtain rfl := Except.ok.inj h
    have hstage := (stage_iff (op.template opId) pathParams).mpr hf (L3.ExecutePath.entries pathParams).length
    rw [List.take_length] at hstage
    rw [(requestPath_ok.mp hp).2, hstage]
    rfl

/-- A text of the arguments, in the request: a path parameter's is its segment, where no other key is
taken for a placeholder; a query parameter's is a pair of the query string; and one of the body stands
at its place in JSON, or under its key in a form. -/
structure Carries (baseUrl : List Char) (opId : String) (op : Operation) (args : Json) (r : Request)
    (path : List String) (v : String) : Prop where
  segment : ∀ name, path = ["path_params", name] → NoForeignMatch (op.template opId) (part args "path_params") →
    r.url = trimEndSlashes baseUrl ++
        render (filled op.path.toList (L3.ExecutePath.entries (part args "path_params"))) ∧
      segmentFor (L3.ExecutePath.entries (part args "path_params")) name.toList = some (segmentOf (.str v))
  query : ∀ name, path = ["query_params", name] → (name, v) ∈ r.query
  body : ∀ k ks, path = "body" :: k :: ks → ∃ sent, r.body = some sent ∧ sent.Holds (k :: ks) v

theorem carries_of_getAt (hr : execute baseUrl root opId op args = .ok r) {path : List String} {v : String}
    (h : args.getAt path = some (.str v)) : Carries baseUrl opId op args r path v := by
  unfold execute at hr
  cases hu : requestUrl baseUrl (op.template opId) (part args "path_params") with
  | error e => rw [hu] at hr; cases hr
  | ok url =>
    rw [hu] at hr
    obtain rfl := Except.ok.inj hr
    refine ⟨fun name hp hf => ⟨url_eq hf hu, ?_⟩, fun name hp => ?_, fun k ks hp => ?_⟩
    · have hpart := getAt_part (hp ▸ h)
      cases hobj : part args "path_params" with
      | obj es =>
        rw [hobj, Json.getAt_obj, Option.bind_eq_some_iff] at hpart
        obtain ⟨c, hc, hv⟩ := hpart
        rw [Json.getAt_nil, Option.some.injEq] at hv
        subst hv
        rw [segmentFor, String.ofList_toList]
        exact congrArg (Option.map segmentOf) hc
      | _ => rw [hobj] at hpart; cases hpart
    · exact mem_queryPairs (getAt_part (hp ▸ h))
    · exact holds_encodeBody (getAt_part (hp ▸ h))

/-- **On the wire.** Where dispatch enforces the user-supplied fields, every request that a spec
upstream is sent carries their values. -/
theorem placed_on_the_wire {t : UserSupplied.Tool} {resolve : String → Option String} {sent : Json}
    (h : Enforced t resolve args) (env : Surroundings) (hsent : sent ∈ (dispatchReach t resolve env args).sent)
    (hr : execute baseUrl root opId op sent = .ok r) :
    ∀ u ∈ t.userSupplied, ∃ v, resolve u.2 = some v ∧
      Carries baseUrl opId op sent r (L2.Project.parsePath u.1) v := by
  intro u hu
  obtain ⟨v, hv, hat⟩ := h env sent hsent u hu
  exact ⟨v, hv, carries_of_getAt hr hat⟩

end MinMcp.L4.OpenApi
