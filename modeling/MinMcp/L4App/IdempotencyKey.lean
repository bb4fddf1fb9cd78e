import MinMcp.L2Machine.WriteOrder
import MinMcp.L4App.HeaderValues

/-!
# The idempotency key of a call

A header with `{{hash}}` carries a digest of the arguments, by which an upstream knows a retry
(src/surface/dispatch.rs:92-108). An agent that retries may send its keys in another order, and the
digest is taken of the arguments as dispatch completes and decodes them.

* `shape_same`: of the same arguments dispatch makes the same arguments.
* `atOnce_key_iff`: a header that asks for the key alone tells keys apart.
* `retries_are_known`: on the wire there is one such header, the same for a retry, and for another call
  only if its digest is.
-/
namespace MinMcp.L4.IdempotencyKey

open MinMcp.Core MinMcp.Core.Json MinMcp.Core.Text MinMcp.Core.PlaceLoop MinMcp.L2 MinMcp.L2.WriteOrder
open MinMcp.L3.RequestHeaders MinMcp.L4.Preflight MinMcp.L4.DoubleEncoded MinMcp.L4.HeaderValues
open MinMcp.L4.UserSupplied (Tool shape applyDefaults preflightSchema)

/-! ## The same arguments -/

theorem decodeText_of_ne_str {v : Json} (h : ∀ s, v ≠ .str s) (declared : Option String) :
    decodeText declared v = v := by
  cases v with
  | str s => exact absurd rfl (h s)
  | _ => rfl

theorem str_of_same {s : String} {w : Json} (h : (Json.str s).Same w) : w = .str s := by
  have he := h.2.2
  cases w with
  | str s' => rw [Json.eqv, decide_eq_true_eq] at he; rw [he]
  | _ => exact absurd he Bool.false_ne_true

/-- A text is the same as itself only. -/
theorem decodeText_same (declared : Option String) {v w : Json} (h : v.Same w) :
    (decodeText declared v).Same (decodeText declared w) := by
  by_cases hv : ∃ s, v = .str s
  · obtain ⟨s, rfl⟩ := hv
    rw [str_of_same h]
    exact same_refl (wf_decodeText h.1)
  · have hw : ∀ s, w ≠ .str s := fun s hs => hv ⟨s, str_of_same (hs ▸ h.symm)⟩
    rw [decodeText_of_ne_str (fun s hs => hv ⟨s, hs⟩), decodeText_of_ne_str hw]
    exact h

theorem same_insert {es fs : List (String × Json)} (h : (obj es).Same (obj fs)) (k : String) {v w : Json}
    (hvw : v.Same w) : (obj (OrderedMap.insert k v es)).Same (obj (OrderedMap.insert k w fs)) := by
  obtain ⟨hes, hfs, hl⟩ := same_obj.mp h
  refine same_obj.mpr ⟨OrderedMap.nodup_insert _ _ hes, OrderedMap.nodup_insert _ _ hfs, fun k' => ?_⟩
  by_cases hk : k' = k
  · subst hk
    rw [OrderedMap.lookup_insert_self, OrderedMap.lookup_insert_self]
    exact .some hvw
  · rw [OrderedMap.lookup_insert_of_ne hk, OrderedMap.lookup_insert_of_ne hk]
    exact hl k'

mutual
theorem decode_same : ∀ (schema : Json) {a b : Json}, a.Same b →
    (decodeStringified schema a).Same (decodeStringified schema b)
  | .obj es, a, b, h => by rw [decodeStringified, decodeStringified]; exact decodeIn_same es h
  | .null, _, _, h | .bool _, _, _, h | .num _, _, _, h | .str _, _, _, h | .arr _, _, _, h => h
termination_by structural schema => schema
theorem decodeIn_same : ∀ (es : List (String × Json)) {a b : Json}, a.Same b →
    (decodeIn es a).Same (decodeIn es b)
  | [], _, _, h => h
  | (k, v) :: es, a, b, h => by
    rw [decodeIn, decodeIn]
    split
    · exact decodeObject_same v h
    · exact decodeIn_same es h
termination_by structural es => es
theorem decodeObject_same : ∀ (props : Json) {a b : Json}, a.Same b →
    (decodeObject props a).Same (decodeObject props b)
  | .obj ps, a, b, h => by
    rcases h.obj_cases with ⟨es, fs, rfl, rfl⟩ | ⟨ha, hb⟩
    · rw [decodeObject, decodeObject]
      exact decodeProps_same ps h
    · have hkeep : ∀ {v : Json}, (∀ es, v ≠ .obj es) → decodeObject (.obj ps) v = v := by
        intro v hv
        cases v with
        | obj es => exact absurd rfl (hv es)
        | _ => rfl
      rw [hkeep ha, hkeep hb]
      exact h
  | .null, _, _, h | .bool _, _, _, h | .num _, _, _, h | .str _, _, _, h | .arr _, _, _, h => h
termination_by structural props => props
theorem decodeProps_same : ∀ (ps : List (String × Json)) {as bs : List (String × Json)},
    (Json.obj as).Same (.obj bs) → (Json.obj (decodeProps ps as)).Same (.obj (decodeProps ps bs))
  | [], _, _, h => h
  | (name, pschema) :: ps, as, bs, h => by
    have hl := h.lookup name
    rw [decodeProps, decodeProps]
    generalize as.lookup name = o, bs.lookup name = o' at hl
    cases hl with
    | none => exact decodeProps_same ps h
    | some hvw =>
      refine decodeProps_same ps (same_insert h name ?_)
      have htext := decodeText_same ((pschema.get "type").bind Json.asStr) hvw
      split
      · exact decode_same pschema htext
      · exact htext
termination_by structural ps => ps
end

/-- The defaults of the overlay have no repeated keys. -/
def DefaultsWF (t : Tool) : Prop := ∀ d ∈ (t.overlay.map UserSupplied.Overlay.defaults).getD [], d.2.WF

theorem applyDefaults_same {t : Tool} (ht : DefaultsWF t) {a b : Json} (h : a.Same b) :
    (applyDefaults t a).Same (applyDefaults t b) := by
  have hsound : Sound (deeper (((t.overlay.map UserSupplied.Overlay.defaults).getD []).map parsed)) := fun e he =>
    sound_parsed ht e (List.mem_filter.mp he).1
  have hfill := fill_same respects_filled hsound (.some h)
  rw [fill_setDefaults, fill_setDefaults] at hfill
  cases hfill with
  | some hfill => exact hfill

/-- Of the same arguments dispatch makes the same arguments. -/
theorem shape_same {t : Tool} (ht : DefaultsWF t) {a b : Json} (h : a.Same b) :
    (shape t a).Same (shape t b) := by
  have hfilled := applyDefaults_same ht h
  unfold shape
  cases preflightSchema t with
  | none => exact hfilled
  | some schema => exact decode_same schema hfilled

theorem argsHash_same {t : Tool} (ht : DefaultsWF t) {a b : Json} (h : a.Same b) : argsHash t a = argsHash t b := by
  obtain ⟨hwf, hwf', heqv⟩ := shape_same ht h
  rw [argsHash, argsHash, L1.CanonicalArgs.canonicalArgs_of_eqv hwf hwf' heqv]

/-! ## A header of the key -/

/-- The configured value asks for the key and nothing else. -/
def AsksKey (v : List Char) : Prop := ∀ g : Generator, g.token <:+: v ↔ g = .hash

theorem length_hex16 (n : UInt64) : (Catalogs.hex16 n).toList.length = 16 := by
  have hle : (Nat.toDigits 16 n.toNat).length ≤ 16 :=
    (Nat.length_toDigits_le_iff (by decide) (by decide)).mpr n.toNat_lt
  rw [Catalogs.hex16, String.toList_ofList, List.length_append, List.length_replicate]
  omega

/-- Such a header is one for two keys only if they are one. -/
theorem atOnce_key_iff {v : List Char} (h : AsksKey v) (m n : UInt64) (r r' : Readings) :
    atOnce (Catalogs.hex16 m).toList r v = atOnce (Catalogs.hex16 n).toList r' v ↔
      Catalogs.hex16 m = Catalogs.hex16 n := by
  constructor
  · intro heq
    rw [atOnce, atOnce, rules, rules] at heq
    have hlen : (valueOf (Catalogs.hex16 m).toList r .hash).length =
        (valueOf (Catalogs.hex16 n).toList r' .hash).length := (length_hex16 m).trans (length_hex16 n).symm
    have hkey := substAll_inj token_ne_nil (by decide) (fun g _ hg => clear_tokens .hash g hg.symm) hlen
      (fun g _ hg hin => absurd ((h g).mp hin) hg) ((h .hash).mpr rfl) heq
    exact String.toList_inj.mp hkey
  · intro he
    have hvalues : ∀ g ∈ generators, g.token <:+: v →
        valueOf (Catalogs.hex16 n).toList r g = valueOf (Catalogs.hex16 n).toList r' g := by
      intro g _ hin
      rw [(h g).mp hin, valueOf, valueOf]
    rw [he, atOnce, atOnce, rules, rules, substAll_congr token_ne_nil v hvalues]

/-! ## On the wire -/

/-- The headers of the request for a call.
mirrors src/surface/dispatch.rs:95-108, src/exec.rs:242-256 -/
def wireHeaders (e : Executor) (t : Tool) (hs : Headers) (args : Json) (r : Nat → Readings) : Option Headers :=
  (extraHeaders t hs args r).map (requestHeaders e)

/-- The last header of a name goes out with the readings of its place. -/
theorem named_sent {t : Tool} {hs : Headers} {name : String} {h : String × List Char}
    (hlast : (hs.named name).getLast? = some h) : ∃ i, ∀ args r, ((sent t hs args r).named name).getLast? =
      some (h.1, atOnce (argsHash t args).toList (r i) h.2) := by
  have hfst : (hs.zipIdx.filter fun x => sameName x.1.1 name).map Prod.fst = hs.named name := by
    have hmap := List.filter_map (f := Prod.fst) (p := fun h => sameName h.1 name) (l := hs.zipIdx)
    rw [List.zipIdx_map_fst] at hmap
    exact hmap.symm
  rw [← hfst, List.getLast?_map, Option.map_eq_some_iff] at hlast
  obtain ⟨⟨h', i⟩, hlast, rfl⟩ := hlast
  refine ⟨i, fun args r => ?_⟩
  rw [sent, Headers.named, List.filter_map, List.getLast?_map]
  exact congrArg _ hlast

/-- **A retry is known by its key.** Whatever else the upstream, the overlay and the clock put into the two
requests: each has one header of the name, and the two are equal exactly if the digests of the arguments
are; as they are when the second call has the arguments of the first with their keys in another order. -/
theorem retries_are_known (e : Executor) {t : Tool} (ht : DefaultsWF t) {hs : Headers} {name : String}
    {h : String × List Char} (hlast : (hs.named name).getLast? = some h) (hv : AsksKey h.2) {r r' : Nat → Readings}
    (hr : ∀ i < hs.length, (r i).Later) (hr' : ∀ i < hs.length, (r' i).Later) (a b : Json) :
    ∃ wa wb va vb, wireHeaders e t hs a r = some wa ∧ wireHeaders e t hs b r' = some wb ∧
      wa.named name = [(h.1, va)] ∧ wb.named name = [(h.1, vb)] ∧ (va = vb ↔ argsHash t a = argsHash t b) ∧
      (a.Same b → va = vb) := by
  obtain ⟨i, hsent⟩ := named_sent (t := t) hlast
  have hwire : ∀ args r, (∀ i < hs.length, (r i).Later) →
      wireHeaders e t hs args r = some (requestHeaders e (sent t hs args r)) := by
    intro args r hr
    rw [wireHeaders, extraHeaders_eq t hs args hr]
    rfl
  have hnamed : ∀ args r, (requestHeaders e (sent t hs args r)).named name =
      [(h.1, atOnce (argsHash t args).toList (r i) h.2)] := by
    intro args r
    rw [named_requestHeaders, hsent args r]
  have hiff := atOnce_key_iff hv (Catalogs.fnv1a (L1.CanonicalArgs.canonicalArgs (shape t a)))
    (Catalogs.fnv1a (L1.CanonicalArgs.canonicalArgs (shape t b))) (r i) (r' i)
  exact ⟨_, _, _, _, hwire a r hr, hwire b r' hr', hnamed a r, hnamed b r', hiff, fun hab =>
    hiff.mpr (argsHash_same ht hab)⟩

def inAutumn (_ : Nat) : Readings := autumn

def anHourLater (_ : Nat) : Readings := { autumn with now := 1795129434000 }

def order : Json := .obj [("item", .str "a"), ("count", .str "2")]

def turnedOrder : Json := .obj [("count", .str "2"), ("item", .str "a")]

/-- An order, and an hour later the same order with its keys turned round. -/
theorem turned_order_is_known : ∃ wa wb va vb,
    wireHeaders ⟨[], none, []⟩ plainTool orderHeaders order inAutumn = some wa ∧
    wireHeaders ⟨[], none, []⟩ plainTool orderHeaders turnedOrder anHourLater = some wb ∧
    wa.named "idempotency-key" = [("Idempotency-Key", va)] ∧
    wb.named "idempotency-key" = [("Idempotency-Key", vb)] ∧ va = vb := by
  have hlast : (Headers.named orderHeaders "idempotency-key").getLast? =
      some ("Idempotency-Key", "order-".toList ++ Generator.hash.token) := by decide
  have hasks : AsksKey ("order-".toList ++ Generator.hash.token) := by
    intro g
    cases g <;> decide
  have hr : ∀ i < orderHeaders.length, (inAutumn i).Later := fun _ _ =>
    show autumn.Later from ⟨by decide, by decide⟩
  have hr' : ∀ i < orderHeaders.length, (anHourLater i).Later := fun _ _ =>
    show Readings.Later { autumn with now := 1795129434000 } from ⟨by decide, by decide⟩
  have hdefaults : DefaultsWF plainTool := fun _ hd => nomatch hd
  have hturned : order.Same turnedOrder := ⟨by simp [order, Json.WF, Json.WFEntries],
    by simp [turnedOrder, Json.WF, Json.WFEntries], by decide⟩
  obtain ⟨wa, wb, va, vb, hwa, hwb, hna, hnb, -, hsame⟩ :=
    retries_are_known ⟨[], none, []⟩ hdefaults hlast hasks hr hr' order turnedOrder
  exact ⟨wa, wb, va, vb, hwa, hwb, hna, hnb, hsame hturned⟩

end MinMcp.L4.IdempotencyKey
