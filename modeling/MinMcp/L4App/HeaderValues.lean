import MinMcp.Core.Text.Substitute
import MinMcp.L1Encoding.Uuid
import MinMcp.L3Protocol.RequestHeaders
import MinMcp.L4App.DoubleEncoded
import MinMcp.L4App.Timestamp

/-!
# The values of an overlay's headers

A header of an overlay may ask for a request id, a time or the idempotency key of the call
(src/surface/generators.rs). `resolve_generators` replaces one token after the other in what the
value is by then, so a value that was put in is read again in the rounds behind.

* `separate_rules`: no token begins inside another, or inside a value of the ones before.
* `resolveGenerators_eq`: so the rounds are one reading of the configured text.
* `header_values`: that holds of all headers of a call, each with readings of its own and the key of
  the arguments.
-/
namespace MinMcp.L4.HeaderValues

open MinMcp.Core MinMcp.Core.Text MinMcp.L3.RequestHeaders MinMcp.L4.DoubleEncoded

/-- In the order of their rounds. -/
inductive Generator where
  | hash
  | uuid
  | nowMs
  | now
  | iso8601
  deriving DecidableEq

def Generator.name : Generator → List Char
  | .hash => "hash".toList
  | .uuid => "uuid".toList
  | .nowMs => "now_ms".toList
  | .now => "now".toList
  | .iso8601 => "iso8601".toList

def Generator.token (g : Generator) : List Char := '{' :: ('{' :: (g.name ++ ['}']) ++ ['}'])

def generators : List Generator := [.hash, .uuid, .nowMs, .now, .iso8601]

/-- What one resolution reads of the system. Every token looks at the clock again, in milliseconds. -/
structure Readings where
  random : Option L1.Uuid.Bytes
  mixMillis : UInt64
  count : UInt64
  nowMs : Nat
  now : Nat
  iso : Nat

/-- `epoch_millis() / 1000` as an `i64`, in words. -/
def isoText (r : Readings) : Option String := Generators.iso8601Utc (Int64.ofNat (r.iso / 1000))

/-- One of the `if`s.
mirrors src/surface/generators.rs:13-28 -/
def replaceToken (g : Generator) (value text : List Char) : List Char :=
  if g.token <:+: text then replaceAll g.token value text else text

/-- No result where the date overflows.
mirrors src/surface/generators.rs:9-30 -/
def resolveGenerators (s argsHash : List Char) (r : Readings) : Option (List Char) :=
  if ¬ ['{', '{'] <:+: s then some s
  else
    let out := replaceToken .hash argsHash s
    let out := replaceToken .uuid (L1.Uuid.genUuid r.random r.mixMillis r.count) out
    let out := replaceToken .nowMs (Nat.toDigits 10 r.nowMs) out
    let out := replaceToken .now (Nat.toDigits 10 (r.now / 1000)) out
    if Generator.iso8601.token <:+: out then
      (isoText r).map fun t => replaceToken .iso8601 t.toList out
    else some out

/-- The headers of a tool for a call with `args`; the readings are those for the header at a place. The
key is computed if one of them asks for it.
mirrors src/surface/dispatch.rs:95-108 -/
def extraHeaders (t : UserSupplied.Tool) (hs : Headers) (args : Json) (r : Nat → Readings) : Option Headers :=
  let key := if hs.any fun h => Generator.hash.token <:+: h.2 then (argsHash t args).toList else []
  hs.zipIdx.mapM fun h => (resolveGenerators h.1.2 key (r h.2)).map fun v => (h.1.1, v)

/-! ## Specification -/

/-- What a token stands for. -/
def valueOf (argsHash : List Char) (r : Readings) : Generator → List Char
  | .hash => argsHash
  | .uuid => L1.Uuid.genUuid r.random r.mixMillis r.count
  | .nowMs => Nat.toDigits 10 r.nowMs
  | .now => Nat.toDigits 10 (r.now / 1000)
  | .iso8601 => ((isoText r).getD "").toList

def rules (argsHash : List Char) (r : Readings) : Rules Char :=
  rulesOf Generator.token generators (valueOf argsHash r)

/-- The configured text with every token replaced at once. -/
def atOnce (argsHash : List Char) (r : Readings) (s : List Char) : List Char := substAll (rules argsHash r) s

/-- A clock past the first three hours of 1970: no number of it is in the name `iso8601`. -/
def Readings.Later (r : Readings) : Prop := 10000 ≤ r.nowMs ∧ 10000 ≤ r.now / 1000

/-! ## Tokens and values -/

theorem token_ne_nil : ∀ g ∈ generators, g.token ≠ [] := fun _ _ => List.cons_ne_nil _ _

theorem clear_of_tails {p w : List Char} (h : ∀ b ∈ w.tails, b = [] ∨ (¬ p <+: b ∧ ¬ b <+: p)) : Clear p w := by
  intro b hb hne
  exact (h b ((List.mem_tails b w).mpr hb)).resolve_left hne

theorem clear_tokens : ∀ g h : Generator, g ≠ h → Clear g.token h.token := by
  intro g h hne
  apply clear_of_tails
  revert hne
  cases g <;> cases h <;> decide

theorem foreign_tokens {g h : Generator} (hne : g ≠ h) : Foreign g.token h.token :=
  ⟨clear_tokens g h hne, clear_tokens h g hne.symm⟩

/-- A value without braces is foreign to the tokens it is no part of. -/
theorem foreign_value {g : Generator} {v : List Char} (hopen : '{' ∉ v) (hclose : '}' ∉ v)
    (hin : ¬ v <:+: g.token) : Foreign g.token v :=
  ⟨clear_of_notMem hopen, clear_of_absent (p := '{' :: ('{' :: (g.name ++ ['}']))) hclose hin⟩

theorem braceFree_toDigits {b : Nat} (hb : 1 < b) (hb' : b ≤ 16) (n : Nat) :
    '{' ∉ Nat.toDigits b n ∧ '}' ∉ Nat.toDigits b n := by
  have hdigit : ∀ d : Fin 16, '{' ≠ Nat.digitChar d ∧ '}' ≠ Nat.digitChar d := by decide
  induction n using Nat.strongRecOn with
  | ind n ih =>
    by_cases hn : n < b
    · rw [Nat.toDigits_of_lt_base hn, List.mem_singleton, List.mem_singleton]
      exact hdigit ⟨n, by omega⟩
    · rw [Nat.toDigits_of_base_le hb (by omega), List.mem_append, List.mem_append, not_or, not_or]
      obtain ⟨hopen, hclose⟩ := ih (n / b) (Nat.div_lt_self (by omega) hb)
      have hmod := hdigit ⟨n % b, by have := Nat.mod_lt n (by omega : 0 < b); omega⟩
      exact ⟨⟨hopen, fun h => hmod.1 (List.mem_singleton.mp h)⟩, hclose, fun h => hmod.2 (List.mem_singleton.mp h)⟩

theorem foreign_hash (n : UInt64) {g : Generator} : Foreign g.token (Catalogs.hex16 n).toList := by
  obtain ⟨hopen, hclose⟩ := braceFree_toDigits (b := 16) (by decide) (by decide) n.toNat
  rw [Catalogs.hex16, String.toList_ofList]
  refine foreign_value ?_ ?_ fun hin => ?_
  · simp [hopen]
  · simp [hclose]
  · have hlen := hin.length_le
    have htoken : g.token.length ≤ 11 := by cases g <;> decide
    rw [List.length_append, List.length_replicate] at hlen
    omega

theorem dash_mem_dashed (h : List Char) : '-' ∈ L1.Uuid.dashed h := by
  simp [L1.Uuid.dashed]

theorem mem_dashed {h : List Char} {c : Char} (hc : c ∈ L1.Uuid.dashed h) : c = '-' ∨ c ∈ h := by
  simp only [L1.Uuid.dashed, List.mem_append, List.mem_cons] at hc
  rcases hc with hc | rfl | hc | rfl | hc | rfl | hc | rfl | hc
  all_goals first
    | exact Or.inl rfl
    | exact Or.inr (List.mem_of_mem_take hc)
    | exact Or.inr (List.mem_of_mem_drop (List.mem_of_mem_take hc))

theorem foreign_uuid (r : Readings) {g : Generator} :
    Foreign g.token (L1.Uuid.genUuid r.random r.mixMillis r.count) := by
  obtain ⟨ds, -, hds, htext, -⟩ := L1.Uuid.isV4_uuid (r.random.getD (L1.Uuid.mixed (L1.Uuid.mix r.mixMillis r.count)))
  have hdigit : ∀ d : Fin 16, '{' ≠ Json.hexDigit d ∧ '}' ≠ Json.hexDigit d := by decide
  have hmem : ∀ c, c ∈ L1.Uuid.dashed (ds.map Json.hexDigit) → c ≠ '{' ∧ c ≠ '}' := by
    intro c hc
    rcases mem_dashed hc with rfl | hc
    · decide
    · obtain ⟨d, hd, rfl⟩ := List.mem_map.mp hc
      exact ⟨(hdigit ⟨d, hds d hd⟩).1.symm, (hdigit ⟨d, hds d hd⟩).2.symm⟩
  rw [L1.Uuid.genUuid, htext]
  refine foreign_value (fun h => (hmem _ h).1 rfl) (fun h => (hmem _ h).2 rfl) fun hin => ?_
  have hdash : '-' ∉ g.token := by cases g <;> decide
  exact hdash (hin.subset (dash_mem_dashed _))

/-- Five digits are more than any token has. -/
theorem foreign_number {n : Nat} (hn : 10000 ≤ n) {g : Generator} : Foreign g.token (Nat.toDigits 10 n) := by
  obtain ⟨hopen, hclose⟩ := braceFree_toDigits (b := 10) (by decide) (by decide) n
  refine foreign_value hopen hclose fun hin => ?_
  have hall : (Nat.toDigits 10 n).countP Char.isDigit = (Nat.toDigits 10 n).length :=
    List.countP_eq_length.mpr fun c hc => Nat.isDigit_of_mem_toDigits (by decide) (by decide) hc
  have hlen : ¬ (Nat.toDigits 10 n).length ≤ 4 := by
    rw [Nat.length_toDigits_le_iff (by decide) (by decide)]
    omega
  have hle := hin.sublist.countP_le (p := Char.isDigit)
  have htoken : g.token.countP Char.isDigit ≤ 4 := by cases g <;> decide
  omega

theorem separate_rules {r : Readings} (hr : r.Later) (n : UInt64) :
    Separate (rules (Catalogs.hex16 n).toList r) := by
  -- the values of the rounds that another one follows
  have hvalue : ∀ g h : Generator, g ≠ .iso8601 → Foreign h.token (valueOf (Catalogs.hex16 n).toList r g) := by
    intro g h hg
    cases g with
    | hash => exact foreign_hash n
    | uuid => exact foreign_uuid r
    | nowMs => exact foreign_number hr.1
    | now => exact foreign_number hr.2
    | iso8601 => exact absurd rfl hg
  have horder : generators.Pairwise fun g h => g ≠ h ∧ g ≠ .iso8601 := by decide
  exact List.pairwise_map.mpr (horder.imp fun {g h} hne => ⟨foreign_tokens hne.1.symm, hvalue g h hne.2⟩)

/-! ## One header -/

theorem replaceToken_eq (g : Generator) (value text : List Char) :
    replaceToken g value text = replaceAll g.token value text := by
  unfold replaceToken
  split
  · rfl
  · next h => exact (replaceAll_of_absent h).symm

/-- Without two braces there is no token. -/
theorem replaceEach_plain {rs : Rules Char} {s : List Char} (h : ¬ ['{', '{'] <:+: s)
    (hrs : ∀ r ∈ rs, ['{', '{'] <+: r.1) : replaceEach rs s = s := by
  induction rs with
  | nil => rfl
  | cons r rs ih =>
    have hr : ¬ r.1 <:+: s := fun hin => h ((hrs r List.mem_cons_self).isInfix.trans hin)
    rw [replaceEach, List.foldl_cons, replaceAll_of_absent hr]
    exact ih fun r' hr' => hrs r' (List.mem_cons_of_mem _ hr')

theorem isoText_isSome (r : Readings) : (isoText r).isSome := by
  unfold isoText
  generalize Int64.ofNat (r.iso / 1000) = secs
  have hlo := secs.le_toInt
  have hhi := secs.toInt_lt
  obtain ⟨y, m, d, hcivil, -⟩ := Generators.civilFromDays_eq (secs.toInt / 86400) (by omega)
  rw [Generators.iso8601Utc]
  simp [hcivil]

/-- The rounds of the code. -/
theorem resolveGenerators_rounds (s argsHash : List Char) (r : Readings) :
    resolveGenerators s argsHash r = some (replaceEach (rules argsHash r) s) := by
  have hbraces : ∀ q ∈ rules argsHash r, ['{', '{'] <+: q.1 := by
    intro q hq
    obtain ⟨g, -, rfl⟩ := List.mem_map.mp hq
    exact ⟨g.name ++ ['}'] ++ ['}'], rfl⟩
  have hlast : ∀ out : List Char,
      (if Generator.iso8601.token <:+: out then (isoText r).map fun t => replaceToken .iso8601 t.toList out
        else some out) = some (replaceAll Generator.iso8601.token (valueOf argsHash r .iso8601) out) := by
    intro out
    obtain ⟨iso, hiso⟩ := Option.isSome_iff_exists.mp (isoText_isSome r)
    rw [valueOf, hiso, Option.getD_some, Option.map_some, replaceToken_eq]
    split
    · rfl
    · next h => rw [replaceAll_of_absent h]
  unfold resolveGenerators
  split
  · next h => rw [replaceEach_plain h hbraces]
  · refine (hlast _).trans ?_
    simp only [replaceToken_eq]
    rfl

/-- **What is sent is the configured text, read once.** -/
theorem resolveGenerators_eq {r : Readings} (hr : r.Later) (n : UInt64) (s : List Char) :
    resolveGenerators s (Catalogs.hex16 n).toList r = some (atOnce (Catalogs.hex16 n).toList r s) := by
  rw [resolveGenerators_rounds, rules, replaceEach_eq_substAll (rulesOf_ne_nil token_ne_nil _) (separate_rules hr n)]
  rfl

/-! ## The headers of a call -/

/-- What the key is does not matter where it is not asked for. -/
theorem resolveGenerators_unasked {s : List Char} (h : ¬ Generator.hash.token <:+: s) (key key' : List Char)
    (r : Readings) : resolveGenerators s key r = resolveGenerators s key' r := by
  have hround : ∀ key, replaceEach (rules key r) s = replaceEach ((rules key r).tail) s := by
    intro key
    rw [rules, rulesOf, generators, List.map_cons, List.tail_cons, replaceEach, List.foldl_cons,
      replaceAll_of_absent h, ← replaceEach]
  rw [resolveGenerators_rounds, resolveGenerators_rounds, hround, hround key']
  rfl

theorem mapM_eq_some {β γ : Type} {f : β → Option γ} {g : β → γ} {l : List β} (h : ∀ x ∈ l, f x = some (g x)) :
    l.mapM f = some (l.map g) := by
  induction l with
  | nil => rfl
  | cons x l ih =>
    rw [List.mapM_cons, h x List.mem_cons_self, ih fun y hy => h y (List.mem_cons_of_mem _ hy)]
    rfl

/-- The headers of a call, each read once. -/
def sent (t : UserSupplied.Tool) (hs : Headers) (args : Json) (r : Nat → Readings) : Headers :=
  hs.zipIdx.map fun h => (h.1.1, atOnce (argsHash t args).toList (r h.2) h.1.2)

theorem extraHeaders_eq (t : UserSupplied.Tool) (hs : Headers) (args : Json) {r : Nat → Readings}
    (hr : ∀ i < hs.length, (r i).Later) : extraHeaders t hs args r = some (sent t hs args r) := by
  refine mapM_eq_some fun h hh => ?_
  have hi : h.2 < hs.length := by
    have := List.snd_lt_of_mem_zipIdx hh
    omega
  have hmem : h.1 ∈ hs := List.fst_mem_of_mem_zipIdx hh
  have hkey : resolveGenerators h.1.2 (if hs.any fun h => Generator.hash.token <:+: h.2 then
      (argsHash t args).toList else []) (r h.2) = resolveGenerators h.1.2 (argsHash t args).toList (r h.2) := by
    split
    · rfl
    · next hnone =>
      refine resolveGenerators_unasked (fun hin => hnone ?_) _ _ _
      exact List.any_eq_true.mpr ⟨h.1, hmem, decide_eq_true hin⟩
  rw [hkey, argsHash, resolveGenerators_eq (hr h.2 hi)]
  rfl

theorem getElem?_sent (t : UserSupplied.Tool) (hs : Headers) (args : Json) (r : Nat → Readings) (i : Nat) :
    (sent t hs args r)[i]? = hs[i]?.map fun h => (h.1, atOnce (argsHash t args).toList (r i) h.2) := by
  rw [sent, List.getElem?_map, List.getElem?_zipIdx, Option.map_map, Nat.zero_add]
  rfl

/-- **The values of a call's headers.** With a clock past the first hours of 1970, every header goes out
under its name with the configured text, in which each token is replaced where the configuration has it,
by readings of that header's own and by the key of the arguments; what was put in is not read again. So
two calls have a header in common when they agree on what its own tokens stand for. -/
theorem header_values (t : UserSupplied.Tool) (hs : Headers) (args : Json) (r : Nat → Readings)
    (hr : ∀ i < hs.length, (r i).Later) : extraHeaders t hs args r = some (sent t hs args r) ∧
      ∀ args' r' i h, hs[i]? = some h →
        (∀ g : Generator, g.token <:+: h.2 →
          valueOf (argsHash t args).toList (r i) g = valueOf (argsHash t args').toList (r' i) g) →
        (sent t hs args r)[i]? = (sent t hs args' r')[i]? := by
  refine ⟨extraHeaders_eq t hs args hr, fun args' r' i h hi hvalues => ?_⟩
  have hsame : atOnce (argsHash t args).toList (r i) h.2 = atOnce (argsHash t args').toList (r' i) h.2 :=
    substAll_congr token_ne_nil h.2 fun g _ hin => hvalues g hin
  rw [getElem?_sent, getElem?_sent, hi, Option.map_some, Option.map_some, hsame]

def plainTool : UserSupplied.Tool := ⟨none, false, .null, [], true⟩

/-- A clock in November 2026. -/
def autumn : Readings := ⟨none, 1795125834000, 1, 1795125834000, 1795125834000, 1795125834000⟩

def orderHeaders : Headers :=
  [("Idempotency-Key", "order-".toList ++ Generator.hash.token), ("X-Sent", Generator.now.token)]

/-- The key is the same an hour later. -/
theorem order_headers : extraHeaders plainTool orderHeaders (.obj []) (fun _ => autumn) =
      some (sent plainTool orderHeaders (.obj []) fun _ => autumn) ∧
    (sent plainTool orderHeaders (.obj []) fun _ => autumn)[0]? =
      (sent plainTool orderHeaders (.obj []) fun _ => { autumn with now := 1795129434000 })[0]? := by
  obtain ⟨hsent, hsame⟩ := header_values plainTool orderHeaders (.obj []) (fun _ => autumn) fun _ _ =>
    ⟨by decide, by decide⟩
  refine ⟨hsent, hsame _ _ 0 _ rfl fun g hin => ?_⟩
  have hnow : ¬ Generator.now.token <:+: "order-".toList ++ Generator.hash.token := by decide
  cases g with
  | now => exact absurd hin hnow
  | _ => rfl

end MinMcp.L4.HeaderValues
