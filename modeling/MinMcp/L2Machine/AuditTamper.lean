import MinMcp.Core.Json.Compare
import MinMcp.Core.Json.Injective
import MinMcp.Core.Json.ReadWF
import MinMcp.L1Encoding.AuditChain
import Mathlib.Data.List.Induction

/-!
# Tamper evidence of the audit chain

The key's hash is ideal: a text presents the reader with pairs of a payload and a
MAC (`presented`), and where the MAC is the payload's the writer has signed that
payload (`Ideal.unforged`); signed payloads do not collide (`Ideal.noCollision`).
The second part is for logs of more than 2^64 lines, whose numbers repeat.

* `payload_inj`: a payload says which MAC, number and content it is made of.
* `prevMac_inj`: in one log, a MAC names the place in the chain.
* `checkLine_next`: the line accepted where the honest chain stands is, as a value,
  the next line of the honest log.
* `accepted_is_prefix`: an accepted text is a prefix of the honest log, value by value.

Values are compared as the library does (`Json.eqv`): an adversary can move `mac`
to another place in its object, and blank lines can be put anywhere.
-/
namespace MinMcp.L2.AuditTamper

open MinMcp.Core MinMcp.L1.AuditChain
open MinMcp.Core.Text (records)

/-- mirrors src/audit_chain.rs:111-117 -/
def hex (bytes : List UInt8) : String :=
  String.ofList (bytes.flatMap fun b => [Json.hexDigit (b.toNat / 16), Json.hexDigit (b.toNat % 16)])

/-- What `mac_for` hashes. -/
def payload (prev : String) (seq : UInt64) (line : Json) : String :=
  prev ++ "\x1f" ++ Nat.repr seq.toNat ++ "\x1f" ++ (removeField "mac" line).render

/-- A line as the callers pass it: any value the reader can take back. -/
structure Line where
  value : Json
  wf : value.WF
  depth : value.depth ≤ JsonReader.depthLimit

/-- The line with its number, as it is signed. -/
def numbered (c : Chain) (l : Line) : Json := insertField "seq" (seqValue c.nextSeq) l.value

-- `ring::hmac::sign` under the chain's key
variable (hmac : String → List UInt8)

def tag (p : String) : String := hex (hmac p)

def next (c : Chain) (l : Line) : Chain := (stamp (tag hmac) c l.value).2

/-- Where the chain stands after these lines. -/
def after (c : Chain) : List Line → Chain
  | [] => c
  | l :: ls => after (next hmac c l) ls

/-- The honest log. -/
def stampedLines (c : Chain) : List Line → List Json
  | [] => []
  | l :: ls => (stamp (tag hmac) c l.value).1 :: stampedLines (next hmac c l) ls

def payloadOf (c : Chain) (l : Line) : String := payload c.prevMac c.nextSeq (numbered c l)

/-- The payloads the writer signs. -/
def signed (c : Chain) : List Line → List String
  | [] => []
  | l :: ls => payloadOf c l :: signed (next hmac c l) ls

/-- The payloads and MACs a text presents, as the reader pairs them. -/
def presented (prev : String) : List (List Char) → List (String × String)
  | [] => []
  | raw :: rest =>
    match JsonReader.read raw with
    | none => []
    | some v =>
      match seqOf v, macOf v with
      | some seq, some mac => (payload prev seq v, mac) :: presented mac rest
      | _, _ => []

/-- The adversary, without the key, has only the pairs the writer made. -/
structure Ideal (log : List Line) (text : List Char) : Prop where
  unforged : ∀ p ∈ presented genesis.prevMac (records text), p.2 = tag hmac p.1 →
    p.1 ∈ signed hmac genesis log
  noCollision : ∀ p ∈ signed hmac genesis log, ∀ q ∈ signed hmac genesis log,
    hmac p = hmac q → p = q

/-! ## What a payload says -/

theorem hexDigit_ne {n : Nat} (h : n < 16) :
    Json.hexDigit n ≠ '\x1f' ∧ Json.hexDigit n ≠ 'g' := by
  have hd : ∀ m : Fin 16, Json.hexDigit m.val ≠ '\x1f' ∧ Json.hexDigit m.val ≠ 'g' := by decide
  exact hd ⟨n, h⟩

theorem mem_hex {bytes : List UInt8} {c : Char} (h : c ∈ (hex bytes).toList) :
    c ≠ '\x1f' ∧ c ≠ 'g' := by
  unfold hex at h
  rw [String.toList_ofList, List.mem_flatMap] at h
  obtain ⟨b, -, hc⟩ := h
  have hb := b.toNat_lt
  simp only [List.mem_cons, List.not_mem_nil, or_false] at hc
  rcases hc with rfl | rfl
  · exact hexDigit_ne (by omega)
  · exact hexDigit_ne (by omega)

theorem hex_ne_genesis (bytes : List UInt8) : hex bytes ≠ genesis.prevMac := by
  intro h
  have hg : 'g' ∈ (hex bytes).toList := by rw [h]; decide
  exact (mem_hex hg).2 rfl

theorem hex_inj {xs ys : List UInt8} (h : hex xs = hex ys) : xs = ys := by
  replace h := congrArg String.toList h
  unfold hex at h
  rw [String.toList_ofList, String.toList_ofList] at h
  induction xs generalizing ys with
  | nil =>
    cases ys with
    | nil => rfl
    | cons y ys => simp at h
  | cons x xs ih =>
    cases ys with
    | nil => simp at h
    | cons y ys =>
      simp only [List.flatMap_cons, List.cons_append, List.nil_append, List.cons.injEq] at h
      obtain ⟨hhi, hlo, hrest⟩ := h
      have hx := x.toNat_lt
      have hy := y.toNat_lt
      have h1 := Json.hexDigit_inj (by omega) (by omega) hhi
      have h2 := Json.hexDigit_inj (by omega) (by omega) hlo
      obtain rfl : x = y := UInt8.toNat_inj.mp (by omega)
      rw [ih hrest]

/-- The separator does not occur in it. -/
def Plain (s : String) : Prop := '\x1f' ∉ s.toList

theorem plain_hex (bytes : List UInt8) : Plain (hex bytes) := fun h => (mem_hex h).1 rfl

theorem plain_repr (n : Nat) : Plain (Nat.repr n) := by
  intro h
  rw [Nat.toList_repr] at h
  exact absurd (Nat.isDigit_of_mem_toDigits (by decide) (by decide) h) (by decide)

theorem repr_inj {m n : Nat} (h : Nat.repr m = Nat.repr n) : m = n := by
  have ht := congrArg String.toList h
  rw [Nat.toList_repr, Nat.toList_repr] at ht
  have hd := congrArg (Nat.ofDigitChars 10 · 0) ht
  rwa [Nat.ofDigitChars_ten_toDigits, Nat.ofDigitChars_ten_toDigits] at hd

/-- Texts cut at their first separator. -/
theorem split_eq {a b : String} (ha : Plain a) (hb : Plain b) {us vs : List Char}
    (h : a.toList ++ '\x1f' :: us = b.toList ++ '\x1f' :: vs) : a = b ∧ us = vs := by
  have hp : ∀ {s : String}, Plain s → ∀ c ∈ s.toList, (c != '\x1f') = true := by
    intro s hs c hc
    rw [bne_iff_ne]
    intro he
    exact hs (he ▸ hc)
  have htake := congrArg (List.takeWhile (· != '\x1f')) h
  have hdrop := congrArg (List.dropWhile (· != '\x1f')) h
  rw [List.takeWhile_append_of_pos (hp ha), List.takeWhile_append_of_pos (hp hb)] at htake
  rw [List.dropWhile_append_of_pos (hp ha), List.dropWhile_append_of_pos (hp hb)] at hdrop
  constructor
  · apply String.toList_inj.mp
    simpa using htake
  · simpa using hdrop

theorem payload_toList (prev : String) (seq : UInt64) (line : Json) :
    (payload prev seq line).toList = prev.toList ++ '\x1f' ::
      ((Nat.repr seq.toNat).toList ++ '\x1f' :: (removeField "mac" line).print) := by
  unfold payload
  rw [String.toList_append, String.toList_append, String.toList_append, String.toList_append,
    Json.render_toList]
  have hs : "\x1f".toList = ['\x1f'] := by decide
  rw [hs]
  simp only [List.append_assoc, List.cons_append, List.nil_append]

/-- A payload says which MAC, number and content it is made of. -/
theorem payload_inj {a b : String} {s t : UInt64} {v w : Json} (ha : Plain a) (hb : Plain b)
    (h : payload a s v = payload b t w) :
    a = b ∧ s = t ∧ (removeField "mac" v).print = (removeField "mac" w).print := by
  have ht := congrArg String.toList h
  rw [payload_toList, payload_toList] at ht
  obtain ⟨hab, hrest⟩ := split_eq ha hb ht
  obtain ⟨hst, hp⟩ := split_eq (plain_repr _) (plain_repr _) hrest
  exact ⟨hab, UInt64.toNat_inj.mp (repr_inj hst), hp⟩

/-! ## The places of one log -/

theorem after_append (c : Chain) (xs ys : List Line) :
    after hmac c (xs ++ ys) = after hmac (after hmac c xs) ys := by
  induction xs generalizing c with
  | nil => rfl
  | cons l ls ih => exact ih (next hmac c l)

theorem stampedLines_append (c : Chain) (xs ys : List Line) :
    stampedLines hmac c (xs ++ ys) = stampedLines hmac c xs ++ stampedLines hmac (after hmac c xs) ys := by
  induction xs generalizing c with
  | nil => rfl
  | cons l ls ih =>
    rw [List.cons_append, stampedLines, stampedLines, ih, List.cons_append]
    rfl

theorem mem_signed {c : Chain} {log : List Line} {p : String} :
    p ∈ signed hmac c log ↔ ∃ done l, done ++ [l] <+: log ∧ p = payloadOf (after hmac c done) l := by
  induction log generalizing c with
  | nil => simp [signed]
  | cons l ls ih =>
    rw [signed, List.mem_cons, ih]
    constructor
    · rintro (rfl | ⟨done, m, hd, rfl⟩)
      · exact ⟨[], l, by simp, rfl⟩
      · exact ⟨l :: done, m, by simpa using hd, rfl⟩
    · rintro ⟨done, m, hd, rfl⟩
      cases done with
      | nil =>
        obtain rfl : m = l := by simpa using hd
        exact Or.inl rfl
      | cons d done =>
        rw [List.cons_append, List.cons_prefix_cons] at hd
        obtain ⟨rfl, hd⟩ := hd
        exact Or.inr ⟨done, m, hd, rfl⟩

theorem plain_prevMac (done : List Line) : Plain (after hmac genesis done).prevMac := by
  rcases List.eq_nil_or_concat done with rfl | ⟨init, l, rfl⟩
  · show Plain "genesis"
    unfold Plain
    decide
  · rw [List.concat_eq_append, after_append]
    exact plain_hex _

variable {hmac} {log : List Line} {text : List Char}

/-- In one log, a MAC names the place in the chain: an induction back along both
places, from one tag to the payload it was made of and the MAC in there. -/
theorem prevMac_inj (h : Ideal hmac log text) {xs ys : List Line} (hx : xs <+: log) (hy : ys <+: log)
    (he : (after hmac genesis xs).prevMac = (after hmac genesis ys).prevMac) :
    xs.length = ys.length := by
  induction xs using List.reverseRecOn generalizing ys with
  | nil =>
    rcases List.eq_nil_or_concat ys with rfl | ⟨ys, m, rfl⟩
    · rfl
    · rw [List.concat_eq_append, after_append] at he
      exact absurd he.symm (hex_ne_genesis _)
  | append_singleton xs l ih =>
    rcases List.eq_nil_or_concat ys with rfl | ⟨ys, m, rfl⟩
    · rw [after_append] at he
      exact absurd he (hex_ne_genesis _)
    · rw [List.concat_eq_append] at he hy ⊢
      rw [after_append, after_append] at he
      have hp : payloadOf (after hmac genesis xs) l = payloadOf (after hmac genesis ys) m :=
        h.noCollision _ ((mem_signed hmac).mpr ⟨xs, l, hx, rfl⟩) _
          ((mem_signed hmac).mpr ⟨ys, m, hy, rfl⟩) (hex_inj he)
      have hm := (payload_inj (plain_prevMac hmac xs) (plain_prevMac hmac ys) hp).1
      have hlen := ih ((List.prefix_append _ _).trans hx) ((List.prefix_append _ _).trans hy) hm
      rw [List.length_append, List.length_append, hlen]
      rfl

/-! ## One line -/

theorem wf_removeField {v : Json} (k : String) (h : v.WF) : (removeField k v).WF := by
  cases v with
  | obj es =>
    rw [removeField_obj]
    rw [Json.wf_obj] at h ⊢
    have hp := OrderedMap.swapRemove_perm k es
    have hs : (es.eraseP fun e => e.1 = k).Sublist es := List.eraseP_sublist
    have hn : (OrderedMap.keys (es.eraseP fun e => e.1 = k)).Nodup := (hs.map Prod.fst).nodup h.1
    exact ⟨(hp.map Prod.fst).nodup_iff.mpr hn, fun e he => h.2 e (hs.subset (hp.subset he))⟩
  | _ => exact h

theorem depth_removeField {v : Json} {n : Nat} (k : String) (h : v.depth ≤ n) :
    (removeField k v).depth ≤ n := by
  cases v with
  | obj es =>
    obtain ⟨m, rfl⟩ : ∃ m, n = m + 1 := ⟨n - 1, by rw [Json.depth] at h; omega⟩
    rw [removeField_obj]
    rw [Json.depth, Nat.add_le_add_iff_right, Json.depthEntries_le] at h ⊢
    have hs : (es.eraseP fun e => e.1 = k).Sublist es := List.eraseP_sublist
    exact fun e he => h e (hs.subset ((OrderedMap.swapRemove_perm k es).subset he))
  | _ => exact h

theorem wf_numbered (c : Chain) (l : Line) : (numbered c l).WF := by
  obtain ⟨v, hw, -⟩ := l
  cases v with
  | obj es => exact OrderedMap.wf_insert trivial hw
  | _ => exact hw

theorem depth_numbered (c : Chain) (l : Line) : (numbered c l).depth ≤ JsonReader.depthLimit := by
  obtain ⟨v, -, hd⟩ := l
  cases v with
  | obj es => exact depth_insert hd (Nat.succ_pos _)
  | _ => exact hd

/-- Values that print alike are one, when the reader can take one of them back. -/
theorem print_inj {v w : Json} (hv : v.WF) (hw : w.WF) (hd : w.depth ≤ JsonReader.depthLimit)
    (h : v.print = w.print) : v = w := by
  have hr := JsonReader.read_print w hw hd
  rw [← h, JsonReader.read_print_eq v hv] at hr
  split at hr
  · exact Option.some.inj hr
  · cases hr

/-- An object with the signed content of `l` and its MAC is the stamped `l`. -/
theorem eqv_stamped {c : Chain} {l : Line} {v : Json} {seq : UInt64} (hv : v.WF)
    (hs : seqOf v = some seq) (hm : macOf v = some (next hmac c l).prevMac)
    (hp : (removeField "mac" v).print = (removeField "mac" (numbered c l)).print) :
    v.eqv (stamp (tag hmac) c l.value).1 = true := by
  have hr : removeField "mac" v = removeField "mac" (numbered c l) :=
    print_inj (wf_removeField "mac" hv) (wf_removeField "mac" (wf_numbered c l))
      (depth_removeField "mac" (depth_numbered c l)) hp
  obtain ⟨es, rfl⟩ := obj_of_seqOf hs
  obtain ⟨w, hw, hd⟩ := l
  cases w with
  | obj fs =>
    have hl : es.lookup "mac" = some (.str (next hmac c ⟨.obj fs, hw, hd⟩).prevMac) := by
      unfold macOf at hm
      rw [Json.get_obj] at hm
      cases he : es.lookup "mac" with
      | none => rw [he] at hm; cases hm
      | some m =>
        rw [he] at hm
        cases m with
        | str s => rw [← Option.some.inj hm]
        | _ => cases hm
    have hpes := OrderedMap.perm_of_lookup hl
    have hsw : OrderedMap.swapRemove "mac" es =
        OrderedMap.swapRemove "mac" (OrderedMap.insert "seq" (seqValue c.nextSeq) fs) := by
      exact Json.obj.inj hr
    -- both are the MAC's entry and the signed content, in some order
    set numberedFields := OrderedMap.insert "seq" (seqValue c.nextSeq) fs with hn
    have hpfs := OrderedMap.perm_of_lookup (OrderedMap.lookup_insert_self "mac"
      (.str (next hmac c ⟨.obj fs, hw, hd⟩).prevMac) numberedFields)
    rw [OrderedMap.swapRemove_insert, ← hsw] at hpfs
    apply Json.eqv_of_perm
    · exact OrderedMap.wf_insert trivial (OrderedMap.wf_insert trivial hw)
    · exact hpes.trans hpfs.symm
  | _ => cases hr

theorem presented_cons {sign : String → String} {c : Chain} {raw : List Char} {rest : List (List Char)}
    {v : Json} (hv : JsonReader.read raw = some v) (hs : seqOf v = some c.nextSeq)
    (hm : macOf v = some (macFor sign c.prevMac c.nextSeq v)) :
    presented c.prevMac (raw :: rest) =
      (payload c.prevMac c.nextSeq v, macFor sign c.prevMac c.nextSeq v) ::
        presented (macFor sign c.prevMac c.nextSeq v) rest := by
  rw [presented]
  simp only [hv, hs, hm]

/-- The pairs the reader has still to see are pairs of the text. -/
def Remaining (text : List Char) (c : Chain) (raws : List (List Char)) : Prop :=
  ∀ p ∈ presented c.prevMac raws, p ∈ presented genesis.prevMac (records text)

/-- The record is, as a value, this line. -/
def Shows (raw : List Char) (line : Json) : Prop :=
  ∃ v, JsonReader.read raw = some v ∧ v.eqv line = true

/-- **Step.** The line accepted where the honest chain stands after `done` is the next
line of the honest log, and the reader moves on with the chain. -/
theorem checkLine_next (h : Ideal hmac log text) {done : List Line} (hd : done <+: log)
    {raw : List Char} {rest : List (List Char)} {c' : Chain}
    (hr : Remaining text (after hmac genesis done) (raw :: rest))
    (hc : checkLine (tag hmac) (after hmac genesis done) raw = .ok c') :
    ∃ l, done ++ [l] <+: log ∧ Shows raw (stamp (tag hmac) (after hmac genesis done) l.value).1 ∧
      c' = after hmac genesis (done ++ [l]) ∧ Remaining text c' rest := by
  obtain ⟨v, hv, hs, hm, rfl⟩ := checkLine_inv _ hc
  unfold Remaining at hr
  rw [presented_cons hv hs hm, List.forall_mem_cons] at hr
  obtain ⟨done', l, hl, he⟩ := (mem_signed hmac).mp (h.unforged _ hr.1 rfl)
  obtain ⟨hprev, -, hbody⟩ := payload_inj (plain_prevMac hmac done) (plain_prevMac hmac done') he
  -- the signed payload was made at this place of the chain
  have hd' := (List.prefix_append done' [l]).trans hl
  have hlen := prevMac_inj h hd hd' hprev
  obtain rfl : done = done' := (List.prefix_of_prefix_length_le hd hd' hlen.le).eq_of_length hlen
  have hmac : macFor (tag hmac) (after hmac genesis done).prevMac (after hmac genesis done).nextSeq v =
      (next hmac (after hmac genesis done) l).prevMac := congrArg (tag hmac) he
  refine ⟨l, hl, ⟨v, hv, ?_⟩, ?_, hr.2⟩
  · exact eqv_stamped (JsonReader.wf_read hv) hs (hmac ▸ hm) hbody
  · rw [after_append, hmac]
    rfl

/-- **Run.** What is accepted from there on are the lines that follow in the log. -/
theorem check_next (h : Ideal hmac log text) {done : List Line} (hd : done <+: log)
    {raws : List (List Char)} {c' : Chain} (hr : Remaining text (after hmac genesis done) raws)
    (hc : check (tag hmac) (after hmac genesis done) raws = some c') :
    ∃ todo, done ++ todo <+: log ∧
      List.Forall₂ Shows raws (stampedLines hmac (after hmac genesis done) todo) := by
  induction raws generalizing done with
  | nil => exact ⟨[], by rwa [List.append_nil], .nil⟩
  | cons raw rest ih =>
    rw [check, Option.bind_eq_some_iff] at hc
    obtain ⟨c₁, hline, hrest⟩ := hc
    obtain ⟨l, hl, hshow, rfl, hr'⟩ := checkLine_next h hd hr (checkLine_toOption _ hline)
    obtain ⟨todo, htodo, hshows⟩ := ih hl hr' hrest
    refine ⟨l :: todo, by rwa [List.append_assoc] at htodo, .cons hshow ?_⟩
    rwa [after_append] at hshows

/-- **Tamper evidence.** A text that `verify` accepts is, value by value, a prefix of
the honest log. -/
theorem accepted_is_prefix (hmac : String → List UInt8) (log : List Line) (text : List Char)
    (h : Ideal hmac log text) (hv : (verify (tag hmac) text).ok = true) :
    ∃ front, front <+: stampedLines hmac genesis log ∧ List.Forall₂ Shows (records text) front := by
  obtain ⟨c', hc⟩ := (verify_ok_iff _ text).mp hv
  have hstart : ([] : List Line) <+: log := List.nil_prefix
  obtain ⟨todo, htodo, hshows⟩ := check_next h hstart (fun p hp => hp) hc
  obtain ⟨more, rfl⟩ := htodo
  refine ⟨_, ?_, hshows⟩
  rw [stampedLines_append]
  exact List.prefix_append _ _

/-! ## A prefix in another spelling -/

def eventLine (event : String) : Line where
  value := .obj [("event", .str event)]
  wf := by simp [Json.WF, Json.WFEntries]
  depth := by simp [Json.depth, Json.depthEntries, JsonReader.depthLimit]

def twoLines : List Line := [eventLine "a", eventLine "b"]

/-- The hash under `audit-key` where the two lines need it. -/
def exampleHmac (p : String) : List UInt8 :=
  if p = "genesis\x1f1\x1f\x7b\"event\":\"a\",\"seq\":1\x7d" then
    [0x8d, 0xbf, 0x05, 0xae, 0x38, 0x44, 0x19, 0x73, 0xba, 0xb4, 0x1f, 0x49, 0xf7, 0xd0, 0xb9, 0x44,
    0xd6, 0x20, 0x68, 0x48, 0x6c, 0xc5, 0x2c, 0x7e, 0xab, 0x34, 0x47, 0x7c, 0xdd, 0x61, 0xd4, 0x7d]
  else if p = "8dbf05ae38441973bab41f49f7d0b944d62068486cc52c7eab34477cdd61d47d\x1f2\x1f\x7b\"event\":\"b\",\"seq\":2\x7d" then
    [0xaf, 0xac, 0x8c, 0x3e, 0x7d, 0x34, 0xca, 0x55, 0x77, 0x96, 0xf8, 0xf6, 0x65, 0x72, 0x71, 0xa7,
    0xfc, 0x9a, 0xb5, 0xe0, 0x57, 0x86, 0xbb, 0x49, 0x68, 0xb0, 0xc8, 0x3c, 0xf0, 0x79, 0x8d, 0x5a]
  else []

/-- A blank line, and the first line with `mac` moved to the front. -/
def respelled : List Char :=
  "\n\x7b\"mac\":\"8dbf05ae38441973bab41f49f7d0b944d62068486cc52c7eab34477cdd61d47d\",\"seq\":1,\"event\":\"a\"\x7d\n".toList

theorem respelled_is_prefix :
    (verify (tag exampleHmac) respelled).ok = true ∧ (records respelled).length = 1 ∧
      ∃ front, front <+: stampedLines exampleHmac genesis twoLines ∧
        List.Forall₂ Shows (records respelled) front := by
  have hv : (verify (tag exampleHmac) respelled).ok = true := by decide +kernel
  refine ⟨hv, by decide +kernel, accepted_is_prefix exampleHmac _ respelled ?_ hv⟩
  exact { unforged := by decide +kernel, noCollision := by decide +kernel }

end MinMcp.L2.AuditTamper
