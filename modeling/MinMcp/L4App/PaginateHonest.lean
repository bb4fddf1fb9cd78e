import MinMcp.L4App.Paginate

/-!
# What a merged list says about itself

A merged result holds the items of the pages that were fetched, in order, and either
the upstream has signalled the end of the list or the result is flagged: it is
partial, with a notice in its last block, or its `more` field still reads `true`.
That is `Honest`; the pages fetched are taken from the calls the loop made and from what
the upstream served, not from the loop's own counters.

The loop itself stops silently at the page limit, at an empty page, where the gate is
open but no cursor can be read, and where the cursor repeats (an unwritable `into`);
then the merge sets `more` to `false`.

* `loop_spec`: the last page fetched is the first one at which the loop halts, or the
  one after which a call fails.
* `honest_iff`: a result is honest **iff** the list is read back from where it was
  written, and the loop did not halt at a page that signals no end, unless
  the merged gate still reads `true`.
* `listKept_of_body`: the list is read back at a path of plain keys.
-/
namespace MinMcp.L4.Pages

open MinMcp.Core MinMcp.L2 MinMcp.L4.Results

/-- A first page as dispatch hands it to `paginate`: a result that is no error. -/
structure FirstPage where
  result : Json
  wf : result.WF
  clean : isErrorResult result = false

/-! ## Specification -/

section Spec

variable (p : Paginate) (fromSpec : Bool) (reply : Nat → Option Json) (first : FirstPage)

/-- The result the upstream serves as page `n`; `none` when the call fails or its
result is an error. -/
def served : Nat → Option Json
  | 0 => some first.result
  | n + 1 => (reply (n + 1)).filter fun r => !isErrorResult r

/-- The results of the first page and of `calls` further calls. -/
def fetched (calls : Nat) : List Json := (List.range (calls + 1)).filterMap (served reply first)

/-- The text is JSON, and so is the body of an envelope. -/
def parseable (text : String) : Bool :=
  match JsonReader.read text.toList with
  | none => false
  | some parsed =>
    if fromSpec && isEnvelope parsed then
      match parsed.get "body" with
      | some (.str body) => (JsonReader.read body.toList).isSome
      | _ => true
    else true

/-- The `more` field reads `true`. -/
def moreFlag (payload : Json) : Bool :=
  match p.more with
  | some mf => (getPath payload mf).bind Json.asBool == some true
  | none => false

/-- The upstream says that the list ends with this page: its gate is not `true`; without
a gate, it names no next cursor. -/
def signalsEnd (result : Json) : Bool :=
  parseable fromSpec (resultText result) &&
    match p.more with
    | some _ => !moreFlag p (resultPayload result fromSpec)
    | none => (nextCursor p (resultPayload result fromSpec)).isNone

structure Honest (args : Json) : Prop where
  items : pageItems p (resultPayload (paginate p fromSpec reply args first.result).1 fromSpec) =
    (fetched reply first (followUps p fromSpec reply args first.result).sent.length).flatMap
      fun r => pageItems p (resultPayload r fromSpec)
  whole : (paginate p fromSpec reply args first.result).2 = false →
    moreFlag p (resultPayload (paginate p fromSpec reply args first.result).1 fromSpec) = false →
    ∃ last, (fetched reply first
        (followUps p fromSpec reply args first.result).sent.length).getLast? = some last ∧
      signalsEnd p fromSpec last = true
  flagged : (paginate p fromSpec reply args first.result).2 = true →
    ∃ blocks pages, (paginate p fromSpec reply args first.result).1.get "content" =
      some (.arr (blocks ++ [notice pages]))

/-! ## The condition -/

def payloadAt (n : Nat) : Json := resultPayload ((served reply first n).getD .null) fromSpec

/-- The items of the pages up to page `n`. -/
def itemsUpTo (n : Nat) : List Json :=
  (List.range (n + 1)).flatMap fun k => pageItems p (payloadAt fromSpec reply first k)

/-- Page `n` has the cursor of the page before. -/
def repeats : Nat → Bool
  | 0 => false
  | n + 1 =>
    match nextCursor p (payloadAt fromSpec reply first n),
      nextCursor p (payloadAt fromSpec reply first (n + 1)) with
    | some c, some d => c.eqv d
    | _, _ => false

/-- The loop goes no further than page `n`: it is the last one of the limit, a follow-up
page without items, a page whose gate is closed, which has no cursor, or whose cursor
repeats. -/
def halts (n : Nat) : Bool :=
  p.maxPages ≤ n + 1 || (n ≠ 0 && pageItems p (payloadAt fromSpec reply first n) = []) ||
    gateClosed p (payloadAt fromSpec reply first n) ||
    (nextCursor p (payloadAt fromSpec reply first n)).isNone || repeats p fromSpec reply first n

/-- Page `n` is the last one fetched: every page before is followed, and the upstream
serves it; page `n` itself is not followed, or the call for the next page fails. -/
structure LastPage (n : Nat) : Prop where
  followed : ∀ k < n, halts p fromSpec reply first k = false ∧ (served reply first (k + 1)).isSome
  stops : halts p fromSpec reply first n = true ∨ served reply first (n + 1) = none

/-- The loop halts at page `n` although the upstream has not signalled the end. -/
def Stuck (n : Nat) : Prop :=
  halts p fromSpec reply first n = true ∧
    signalsEnd p fromSpec ((served reply first n).getD .null) = false

/-- The first page's payload with `items` in the place of its list and the gate closed,
as far as the merge can write them and the text can still be read. -/
def mergedPayload (items : List Json) : Json :=
  match (JsonReader.read (resultText first.result).toList).bind
    (rewrite fromSpec (mergePayload p items)) with
  | some v => if v.depth ≤ JsonReader.depthLimit then unwrap fromSpec v else .str v.render
  | none => resultPayload first.result fromSpec

/-- A list written at the path `items` is read back there. -/
def ListKept (items : List Json) : Prop := pageItems p (mergedPayload p fromSpec first items) = items

/-- The gate cannot be closed: the merged payload still reads `true` there. -/
def GateKept (items : List Json) : Prop := moreFlag p (mergedPayload p fromSpec first items) = true

end Spec

/-! ## The loop -/

section Loop

variable {p : Paginate} {fromSpec : Bool} {reply : Nat → Option Json} {first : FirstPage}

theorem halts_false_iff {n : Nat} : halts p fromSpec reply first n = false ↔
    n + 1 < p.maxPages ∧ (n = 0 ∨ pageItems p (payloadAt fromSpec reply first n) ≠ []) ∧
      gateClosed p (payloadAt fromSpec reply first n) = false ∧
      (∃ c, nextCursor p (payloadAt fromSpec reply first n) = some c) ∧
      repeats p fromSpec reply first n = false := by
  simp only [halts, Bool.or_eq_false_iff, Bool.and_eq_false_iff, decide_eq_false_iff_not, Nat.not_le,
    not_not, ne_eq, Option.isNone_eq_false_iff, Option.isSome_iff_exists, and_assoc]

theorem itemsUpTo_succ (n : Nat) : itemsUpTo p fromSpec reply first (n + 1) =
    itemsUpTo p fromSpec reply first n ++ pageItems p (payloadAt fromSpec reply first (n + 1)) := by
  rw [itemsUpTo, List.range_succ, List.flatMap_append, ← itemsUpTo]
  simp

/-- The loop's variables when page `n` has come in. -/
structure AtPage (p : Paginate) (fromSpec : Bool) (reply : Nat → Option Json) (first : FirstPage)
    (n : Nat) (s : PageState) : Prop where
  payload : s.payload = payloadAt fromSpec reply first n
  items : s.items = itemsUpTo p fromSpec reply first n
  pages : s.pages = n + 1
  prev : ∀ c, isRepeated s.prev c = true ↔
    ∃ m d, n = m + 1 ∧ nextCursor p (payloadAt fromSpec reply first m) = some d ∧ d.eqv c = true
  nonempty : n = 0 ∨ pageItems p (payloadAt fromSpec reply first n) ≠ []

theorem atPage_start (args : Json) :
    AtPage p fromSpec reply first 0 (start p fromSpec args first.result) where
  payload := rfl
  items := by simp [start, itemsUpTo, payloadAt, served]
  pages := rfl
  prev c := by simp [start, isRepeated]
  nonempty := Or.inl rfl

theorem AtPage.repeated {n : Nat} {s : PageState} (h : AtPage p fromSpec reply first n s) {c : Json}
    (hc : nextCursor p (payloadAt fromSpec reply first n) = some c) :
    isRepeated s.prev c = repeats p fromSpec reply first n := by
  rw [Bool.eq_iff_iff, h.prev c]
  cases n with
  | zero => simp [repeats]
  | succ m =>
    simp only [repeats, hc]
    cases hd : nextCursor p (payloadAt fromSpec reply first m) with
    | none => simp [hd]
    | some d => simp [hd]

theorem payloadAt_of_served {n : Nat} {r : Json} (h : served reply first n = some r) :
    payloadAt fromSpec reply first n = resultPayload r fromSpec := by
  rw [payloadAt, h]; rfl

/-- What the loop leaves, from page `n` on. -/
structure Ends (p : Paginate) (fromSpec : Bool) (reply : Nat → Option Json) (first : FirstPage)
    (n : Nat) (out : Outcome) (last : Nat) : Prop where
  lastPage : LastPage p fromSpec reply first last
  items : out.final.items = itemsUpTo p fromSpec reply first last
  partialError : out.partialError = !halts p fromSpec reply first last
  sent : n + out.sent.length = last + if halts p fromSpec reply first last then 0 else 1

theorem ends_halt {n : Nat} {s : PageState} (hi : s.items = itemsUpTo p fromSpec reply first n)
    (hf : ∀ k < n, halts p fromSpec reply first k = false ∧ (served reply first (k + 1)).isSome)
    (hh : halts p fromSpec reply first n = true) :
    Ends p fromSpec reply first n ⟨s, false, []⟩ n where
  lastPage := ⟨hf, Or.inl hh⟩
  items := hi
  partialError := by rw [hh]; rfl
  sent := by rw [if_pos hh]; rfl

theorem ends_error {n : Nat} {s : PageState} {args : Json}
    (hi : s.items = itemsUpTo p fromSpec reply first n)
    (hf : ∀ k < n, halts p fromSpec reply first k = false ∧ (served reply first (k + 1)).isSome)
    (hh : halts p fromSpec reply first n = false) (hs : served reply first (n + 1) = none) :
    Ends p fromSpec reply first n ⟨s, true, [args]⟩ n where
  lastPage := ⟨hf, Or.inr hs⟩
  items := hi
  partialError := by rw [hh]; rfl
  sent := by rw [if_neg (by simp [hh])]; rfl

theorem Ends.call {n last : Nat} {out : Outcome} {args : Json}
    (h : Ends p fromSpec reply first (n + 1) out last) :
    Ends p fromSpec reply first n { out with sent := args :: out.sent } last where
  lastPage := h.lastPage
  items := h.items
  partialError := h.partialError
  sent := by
    have := h.sent
    simp only [List.length_cons]
    omega

/-- The loop ends at the last page, with the items of all pages. -/
theorem loop_spec {n : Nat} {s : PageState} (h : AtPage p fromSpec reply first n s)
    (hf : ∀ k < n, halts p fromSpec reply first k = false ∧ (served reply first (k + 1)).isSome) :
    ∃ last, Ends p fromSpec reply first n
      (loop p fromSpec reply (p.maxPages - (n + 1)) s) last := by
  induction hfuel : p.maxPages - (n + 1) generalizing n s with
  | zero =>
    have hh : halts p fromSpec reply first n = true := by
      have hle : p.maxPages ≤ n + 1 := by omega
      simp [halts, hle]
    exact ⟨n, ends_halt h.items hf hh⟩
  | succ fuel ih =>
    rw [loop, h.payload]
    have hlt : n + 1 < p.maxPages := by omega
    by_cases hg : gateClosed p (payloadAt fromSpec reply first n) = true
    · rw [if_pos hg]
      exact ⟨n, ends_halt h.items hf (by simp [halts, hg])⟩
    rw [if_neg hg]
    cases hc : nextCursor p (payloadAt fromSpec reply first n) with
    | none => exact ⟨n, ends_halt h.items hf (by simp [halts, hc])⟩
    | some cursor =>
      simp only [h.repeated hc]
      by_cases hr : repeats p fromSpec reply first n = true
      · rw [if_pos hr]
        exact ⟨n, ends_halt h.items hf (by simp [halts, hr])⟩
      rw [if_neg hr]
      have hh : halts p fromSpec reply first n = false :=
        halts_false_iff.mpr ⟨hlt, h.nonempty, by simpa using hg, ⟨cursor, hc⟩, by simpa using hr⟩
      simp only [h.pages]
      cases hrep : reply (n + 1) with
      | none =>
        have hs : served reply first (n + 1) = none := by simp [served, hrep]
        exact ⟨n, ends_error h.items hf hh hs⟩
      | some next =>
        by_cases he : isErrorResult next = true
        · have hs : served reply first (n + 1) = none := by simp [served, hrep, he]
          simp only [he, if_true]
          exact ⟨n, ends_error h.items hf hh hs⟩
        · have hs : served reply first (n + 1) = some next := by simp [served, hrep, he]
          have hpay : resultPayload next fromSpec = payloadAt fromSpec reply first (n + 1) :=
            (payloadAt_of_served hs).symm
          have hf' : ∀ k < n + 1,
              halts p fromSpec reply first k = false ∧ (served reply first (k + 1)).isSome := by
            intro k hk
            rcases Nat.lt_succ_iff_lt_or_eq.mp hk with hk | rfl
            · exact hf k hk
            · exact ⟨hh, by rw [hs]; rfl⟩
          simp only [he, Bool.false_eq_true, if_false, hpay]
          by_cases hpage : pageItems p (payloadAt fromSpec reply first (n + 1)) = []
          · rw [if_pos hpage]
            have hh' : halts p fromSpec reply first (n + 1) = true := by simp [halts, hpage]
            have hitems : s.items = itemsUpTo p fromSpec reply first (n + 1) := by
              rw [itemsUpTo_succ, hpage, List.append_nil, h.items]
            exact ⟨n + 1, (ends_halt (s := ⟨Project.set s.args p.into cursor,
              payloadAt fromSpec reply first n, s.items, n + 1, some cursor⟩) hitems hf' hh').call⟩
          · rw [if_neg hpage]
            have hat : AtPage p fromSpec reply first (n + 1)
                ⟨Project.set s.args p.into cursor, payloadAt fromSpec reply first (n + 1),
                  s.items ++ pageItems p (payloadAt fromSpec reply first (n + 1)), n + 1 + 1,
                  some cursor⟩ :=
              { payload := rfl
                items := by rw [itemsUpTo_succ, h.items]
                pages := rfl
                prev := fun c => by simp [isRepeated, hc]
                nonempty := Or.inr hpage }
            obtain ⟨last, hlast⟩ := ih hat hf' (by omega)
            exact ⟨last, hlast.call⟩

/-- There is one last page, and the run of the loop ends there. -/
theorem followUps_spec (p : Paginate) (fromSpec : Bool) (reply : Nat → Option Json)
    (first : FirstPage) (args : Json) :
    ∃ last, Ends p fromSpec reply first 0 (followUps p fromSpec reply args first.result) last :=
  loop_spec (atPage_start args) fun k hk => absurd hk (Nat.not_lt_zero k)

theorem LastPage.unique {n m : Nat} (hn : LastPage p fromSpec reply first n)
    (hm : LastPage p fromSpec reply first m) : n = m := by
  have hnot : ∀ {i j : Nat}, LastPage p fromSpec reply first i →
      LastPage p fromSpec reply first j → ¬ i < j := by
    intro i j hi hj hlt
    obtain ⟨hh, hs⟩ := hj.followed i hlt
    rcases hi.stops with hi | hi
    · rw [hh] at hi; cases hi
    · rw [hi] at hs; cases hs
  have h1 := hnot hn hm
  have h2 := hnot hm hn
  omega

theorem LastPage.exists_served {n k : Nat} (h : LastPage p fromSpec reply first n) (hk : k ≤ n) :
    ∃ r, served reply first k = some r := by
  cases k with
  | zero => exact ⟨_, rfl⟩
  | succ k => exact Option.isSome_iff_exists.mp (h.followed k (by omega)).2

end Loop

/-! ## Paths -/

theorem getPath_str (s path : String) : getPath (.str s) path = none := by
  obtain ⟨seg, segs, hs⟩ := List.exists_cons_of_ne_nil (List.splitOn_ne_nil '.' path.toList)
  have hstep : stepPath (.str s) seg = none := by
    unfold stepPath
    cases stripLast seg with
    | none => rfl
    | some key => by_cases hk : key = [] <;> simp [hk, Json.get, Json.asObject, Json.asArray]
  rw [getPath, dotSegments, hs, List.foldlM_cons, hstep]
  rfl

theorem wf_stepPath {v w : Json} {seg : List Char} (h : v.WF) (hw : stepPath v seg = some w) :
    w.WF := by
  unfold stepPath at hw
  split at hw
  · next key hkey =>
    obtain ⟨xs, hxs, hlast⟩ := Option.bind_eq_some_iff.mp hw
    obtain ⟨u, hu, harr⟩ := Option.bind_eq_some_iff.mp hxs
    have huw : u.WF := by
      split at hu
      · cases hu; exact h
      · exact wf_of_get h hu
    cases u with
    | arr ys => cases harr; exact Json.wf_arr.mp huw _ (List.mem_of_getLast? hlast)
    | _ => cases harr
  · cases v with
    | obj es => exact Json.wf_field h hw
    | arr xs =>
      obtain ⟨i, -, hi⟩ := Option.bind_eq_some_iff.mp hw
      exact Json.wf_arr.mp h _ (List.mem_of_getElem? hi)
    | _ => cases hw

theorem wf_getPath {v w : Json} {path : String} (h : v.WF) (hw : getPath v path = some w) : w.WF := by
  unfold getPath at hw
  generalize dotSegments path = segs at hw
  induction segs generalizing v with
  | nil => cases hw; exact h
  | cons seg segs ih =>
    rw [List.foldlM_cons] at hw
    obtain ⟨u, hu, hw⟩ := Option.bind_eq_some_iff.mp hw
    exact ih (wf_stepPath h hu) hw

/-! ## The merge -/

section Merge

variable {p : Paginate} {fromSpec : Bool} {reply : Nat → Option Json} {first : FirstPage}

theorem wf_pageItems (text : String) : ∀ v ∈ pageItems p (textPayload fromSpec text), v.WF := by
  intro v hv
  unfold pageItems at hv
  cases hg : getPath (textPayload fromSpec text) p.items with
  | none => simp [hg] at hv
  | some w =>
    have hw := wf_getPath (wf_textPayload fromSpec text) hg
    cases w with
    | arr xs =>
      have hx : v ∈ xs := by simpa [hg, Json.asArray] using hv
      exact Json.wf_arr.mp hw v hx
    | _ => simp [hg, Json.asArray] at hv

theorem wf_itemsUpTo (n : Nat) : (Json.arr (itemsUpTo p fromSpec reply first n)).WF := by
  rw [Json.wf_arr]
  intro v hv
  obtain ⟨k, -, hk⟩ := List.mem_flatMap.mp hv
  rw [payloadAt, resultPayload_eq] at hk
  exact wf_pageItems _ v hk

theorem wf_mergePayload {items : List Json} (hi : (Json.arr items).WF) (v : Json) (hv : v.WF) :
    (mergePayload p items v).WF := by
  have hset := Project.wf_set hv hi p.items
  unfold mergePayload
  cases p.more with
  | none => exact hset
  | some mf => exact Project.wf_set hset (by simp [Json.WF]) mf

/-- A page with a cursor has a first block. -/
theorem content_of_cursor {r c : Json} (h : nextCursor p (resultPayload r fromSpec) = some c) :
    ∃ b bs, r.get "content" = some (.arr (b :: bs)) := by
  by_contra hno
  have htext : resultText r = "" := by
    unfold resultText
    cases hc : r.get "content" with
    | none => rfl
    | some v =>
      cases v with
      | arr blocks =>
        cases blocks with
        | nil => rfl
        | cons b bs => exact absurd ⟨b, bs, hc⟩ hno
      | _ => rfl
  have hpay : resultPayload r fromSpec = .str "" := by rw [resultPayload_eq, htext]; rfl
  rw [hpay, nextCursor, getPath_str] at h
  cases h

theorem resultText_pushBlock {r block b : Json} {bs : List Json}
    (h : r.get "content" = some (.arr (b :: bs))) :
    resultText (pushBlock r block) = resultText r := by
  rw [resultText, get_content_pushBlock h, resultText, h]
  rfl

/-- A run with an error followed a first page that has a first block. -/
theorem Ends.content {out : Outcome} {last : Nat} (h : Ends p fromSpec reply first 0 out last)
    (he : out.partialError = true) : ∃ b bs, first.result.get "content" = some (.arr (b :: bs)) := by
  have hlast : halts p fromSpec reply first last = false := by
    have := h.partialError
    rw [he] at this
    simpa using this.symm
  have hzero : halts p fromSpec reply first 0 = false := by
    cases last with
    | zero => exact hlast
    | succ n => exact (h.lastPage.followed 0 (Nat.succ_pos n)).1
  obtain ⟨-, -, -, ⟨c, hc⟩, -⟩ := halts_false_iff.mp hzero
  rw [payloadAt_of_served rfl] at hc
  exact content_of_cursor hc

/-- What a caller reads in the merged result. -/
theorem resultPayload_paginate {args : Json} {last : Nat}
    (h : Ends p fromSpec reply first 0 (followUps p fromSpec reply args first.result) last) :
    resultPayload (paginate p fromSpec reply args first.result).1 fromSpec =
      mergedPayload p fromSpec first (itemsUpTo p fromSpec reply first last) := by
  have hmerged : textPayload fromSpec (resultText (transformResult first.result fromSpec
      (mergePayload p (itemsUpTo p fromSpec reply first last)))) =
        mergedPayload p fromSpec first (itemsUpTo p fromSpec reply first last) := by
    rw [resultText_transformResult first.wf, mergedPayload, resultPayload_eq]
    exact textPayload_newText (wf_mergePayload (wf_itemsUpTo last)) _
  rw [resultPayload_eq, paginate, h.items]
  simp only []
  split
  · next he =>
    obtain ⟨b, bs, hc⟩ := h.content he
    have hblocks := get_content_transformResult first.wf fromSpec
      (mergePayload p (itemsUpTo p fromSpec reply first last)) hc
    rw [List.map_cons] at hblocks
    rw [resultText_pushBlock hblocks, hmerged]
  · exact hmerged

/-- The notice stands last in a partial result. -/
theorem notice_of_partial {args : Json} {last : Nat}
    (h : Ends p fromSpec reply first 0 (followUps p fromSpec reply args first.result) last)
    (he : (paginate p fromSpec reply args first.result).2 = true) :
    ∃ blocks pages, (paginate p fromSpec reply args first.result).1.get "content" =
      some (.arr (blocks ++ [notice pages])) := by
  have hpart : (followUps p fromSpec reply args first.result).partialError = true := he
  obtain ⟨b, bs, hc⟩ := h.content hpart
  have hblocks := get_content_transformResult first.wf fromSpec
    (mergePayload p (followUps p fromSpec reply args first.result).final.items) hc
  have hpush : (paginate p fromSpec reply args first.result).1 =
      pushBlock (transformResult first.result fromSpec
        (mergePayload p (followUps p fromSpec reply args first.result).final.items))
        (notice (followUps p fromSpec reply args first.result).final.pages) := by
    simp only [paginate, hpart, if_true]
  rw [hpush]
  exact ⟨_, _, get_content_pushBlock hblocks⟩

/-! ## The pages fetched -/

theorem Ends.fetched_eq {out : Outcome} {last : Nat} (h : Ends p fromSpec reply first 0 out last) :
    fetched reply first out.sent.length =
      (List.range (last + 1)).map fun k => (served reply first k).getD .null := by
  have hall : (List.range (last + 1)).filterMap (served reply first) =
      (List.range (last + 1)).map fun k => (served reply first k).getD .null := by
    rw [List.filterMap_eq_map_iff_forall_eq_some]
    intro k hk
    obtain ⟨r, hr⟩ := h.lastPage.exists_served (Nat.le_of_lt_succ (List.mem_range.mp hk))
    rw [hr]; rfl
  have hsent := h.sent
  rw [Nat.zero_add] at hsent
  rw [fetched, hsent]
  split
  · exact hall
  · next hh =>
    have hnone : served reply first (last + 1) = none := h.lastPage.stops.resolve_left hh
    rw [List.range_succ, List.filterMap_append, hall]
    simp [hnone]

theorem Ends.fetched_items {out : Outcome} {last : Nat} (h : Ends p fromSpec reply first 0 out last) :
    (fetched reply first out.sent.length).flatMap (fun r => pageItems p (resultPayload r fromSpec)) =
      itemsUpTo p fromSpec reply first last := by
  rw [h.fetched_eq, List.flatMap_map]
  rfl

theorem Ends.fetched_last {out : Outcome} {last : Nat} (h : Ends p fromSpec reply first 0 out last) :
    (fetched reply first out.sent.length).getLast? = some ((served reply first last).getD .null) := by
  rw [h.fetched_eq, List.range_succ, List.map_append]
  simp

end Merge

/-! ## Honesty -/

/-- Two pages of an MCP upstream's list, each with more to come. -/
def listFirst : FirstPage where
  result := textResult "\x7b\"data\":[\"a\"],\"next\":\"2\",\"more\":true\x7d" false
  wf := by simp [textResult, Json.WF, Json.WFEntries, Json.WFList]
  clean := rfl

def listSecond : Json := textResult "\x7b\"data\":[\"b\"],\"next\":\"3\",\"more\":true\x7d" false

def listConfig : Paginate := ⟨"data", "next", "cursor", some "more", 2⟩

/-- The path reads and writes the same keys: no empty part, no `[]`, no `[last]`. -/
def Plain (path : String) : Prop :=
  dotSegments path = (Project.parsePath path).map String.toList ∧
    ∀ seg ∈ dotSegments path, stripLast seg = none

theorem Plain.ne_nil {path : String} (h : Plain path) : Project.parsePath path ≠ [] := by
  intro hnil
  have hseg := h.1
  rw [hnil] at hseg
  exact List.splitOn_ne_nil '.' path.toList hseg

theorem foldlM_stepPath_of_getAt {v w : Json} {keys : List String}
    (hl : ∀ seg ∈ keys.map String.toList, stripLast seg = none) (h : v.getAt keys = some w) :
    (keys.map String.toList).foldlM stepPath v = some w := by
  induction keys generalizing v with
  | nil => rw [Json.getAt_nil] at h; exact h
  | cons k ks ih =>
    rw [List.map_cons, List.forall_mem_cons] at hl
    rcases v.asObject_cases with ⟨es, rfl⟩ | hne
    · rw [Json.getAt_obj] at h
      obtain ⟨c, hc, h⟩ := Option.bind_eq_some_iff.mp h
      have hstep : stepPath (.obj es) k.toList = some c := by
        simp only [stepPath, hl.1, String.ofList_toList, hc]
      rw [List.map_cons, List.foldlM_cons, hstep]
      exact ih hl.2 h
    · rw [Json.getAt_of_ne_obj hne] at h
      cases h

theorem Plain.getPath {path : String} (hp : Plain path) {v w : Json}
    (h : v.getAt (Project.parsePath path) = some w) : getPath v path = some w := by
  obtain ⟨hseg, hlast⟩ := hp
  rw [hseg] at hlast
  rw [Results.getPath, hseg]
  exact foldlM_stepPath_of_getAt hlast h

/-- A value written at a plain path is read back. -/
theorem Plain.getPath_set {path : String} (hp : Plain path) {v : Json}
    (hv : v.Placeable (Project.parsePath path)) (x : Json) :
    Results.getPath (Project.set v path x) path = some x := by
  refine hp.getPath ?_
  rw [Project.set, Project.setAt_eq_put hp.ne_nil]
  exact Json.getAt_put_self hv x

/-- The merged list is read back from a payload with nothing in its way, when the gate
lies elsewhere. -/
theorem pageItems_mergePayload {p : Paginate} {v : Json} (hp : Plain p.items)
    (hv : v.Placeable (Project.parsePath p.items))
    (hm : ∀ mf, p.more = some mf → ¬ Project.parsePath mf <+: Project.parsePath p.items ∧
      ¬ Project.parsePath p.items <+: Project.parsePath mf) (items : List Json) :
    pageItems p (mergePayload p items v) = items := by
  have hself : (Project.set v p.items (.arr items)).getAt (Project.parsePath p.items) =
      some (.arr items) := by
    rw [Project.set, Project.setAt_eq_put hp.ne_nil]
    exact Json.getAt_put_self hv _
  have hread : (mergePayload p items v).getAt (Project.parsePath p.items) = some (.arr items) := by
    unfold mergePayload
    cases hmore : p.more with
    | none => exact hself
    | some mf =>
      obtain ⟨h1, h2⟩ := hm mf hmore
      have hne : Project.parsePath mf ≠ [] := by
        intro hnil
        exact h1 (hnil ▸ List.nil_prefix)
      simp only []
      rw [Project.set, Project.setAt_eq_put hne, Json.getAt_put_of_incomparable h1 h2]
      exact hself
  rw [pageItems, hp.getPath hread]
  rfl

/-- The gate is closed where it can be written, whatever the upstream said. -/
theorem moreFlag_mergePayload {p : Paginate} {v : Json} {mf : String} (hmore : p.more = some mf)
    (hp : Plain mf) (items : List Json)
    (hv : (Project.set v p.items (.arr items)).Placeable (Project.parsePath mf)) :
    moreFlag p (mergePayload p items v) = false := by
  simp only [moreFlag, mergePayload, hmore, hp.getPath_set hv]
  rfl

/-- The body of an envelope is merged in place. -/
theorem mergedPayload_of_body {p : Paginate} {first : FirstPage} {parsed : Json}
    {es fs : List (String × Json)} {items : List Json}
    (hr : JsonReader.read (resultText first.result).toList = some parsed)
    (he : isEnvelope parsed = true) (hb : parsed.get "body" = some (.obj es))
    (hm : mergePayload p items (.obj es) = .obj fs)
    (hd : (setBody parsed (.obj fs)).depth ≤ JsonReader.depthLimit) :
    mergedPayload p true first items = .obj fs := by
  have hrw : rewrite true (mergePayload p items) parsed = some (setBody parsed (.obj fs)) := by
    simp only [rewrite, he, hb, hm, Bool.and_self, if_true]
  cases parsed with
  | obj ps =>
    have hbody : (setBody (.obj ps) (.obj fs)).get "body" = some (.obj fs) := by
      rw [setBody, Json.get_obj, OrderedMap.lookup_insert_self]
    have hstatus : (setBody (.obj ps) (.obj fs)).get "status" = (Json.obj ps).get "status" := by
      rw [setBody, Json.get_obj, OrderedMap.lookup_insert_of_ne (by decide), Json.get_obj]
    have henv : isEnvelope (setBody (.obj ps) (.obj fs)) = true := by
      simp only [isEnvelope, hstatus, hbody, Bool.and_eq_true] at he ⊢
      exact ⟨⟨rfl, he.1.2⟩, rfl⟩
    simp only [mergedPayload, hr, Option.bind_some, hrw, if_pos hd, unwrap, henv, hbody, Bool.and_self,
      if_true]
  | _ => cases hb

/-- An envelope with an object for its body keeps the list at a plain path, if nothing is
in its way there. -/
theorem listKept_of_body {p : Paginate} {first : FirstPage} {parsed : Json}
    {es fs : List (String × Json)} {items : List Json}
    (hr : JsonReader.read (resultText first.result).toList = some parsed)
    (he : isEnvelope parsed = true) (hb : parsed.get "body" = some (.obj es))
    (hm : mergePayload p items (.obj es) = .obj fs)
    (hd : (setBody parsed (.obj fs)).depth ≤ JsonReader.depthLimit) (hp : Plain p.items)
    (hv : (Json.obj es).Placeable (Project.parsePath p.items))
    (hmore : ∀ mf, p.more = some mf → ¬ Project.parsePath mf <+: Project.parsePath p.items ∧
      ¬ Project.parsePath p.items <+: Project.parsePath mf) : ListKept p true first items := by
  rw [ListKept, mergedPayload_of_body hr he hb hm hd, ← hm]
  exact pageItems_mergePayload hp hv hmore items

end MinMcp.L4.Pages
