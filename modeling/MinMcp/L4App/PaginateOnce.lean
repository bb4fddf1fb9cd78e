import MinMcp.L4App.PaginateHonest
import Mathlib.Data.List.Flatten

/-!
# A page that comes twice

`Surface::paginate` compares the cursor it is about to send with the one it sent before, and
stops when they are equal. An upstream that ignores the cursor, or that never gets it because
the cursor cannot be written into the arguments, answers with the page before: by then the
answer has been merged.

* `Once`: the merged items are those of the first page and of the follow-ups on which the
  upstream has advanced.
* `once_iff`: the exact condition. `samePage_halts`: the loop goes no further.
* `ignored_cursor_merges_twice`: an upstream that ignores the cursor.
-/
namespace MinMcp.L4.Pages

open MinMcp.Core MinMcp.L2 MinMcp.L4.Results

section Spec

variable (p : Paginate) (fromSpec : Bool) (reply : Nat → Option Json) (first : FirstPage)

/-- Page `n` is the page before once more, with its items and its next cursor. -/
def samePage : Nat → Bool
  | 0 => false
  | n + 1 =>
    (Json.arr (pageItems p (payloadAt fromSpec reply first n))).eqv
        (.arr (pageItems p (payloadAt fromSpec reply first (n + 1)))) &&
      repeats p fromSpec reply first (n + 1)

/-- The items of the pages that the upstream has advanced on, of `calls` calls. -/
def advancedItems (calls : Nat) : List Json :=
  ((List.range (calls + 1)).filter fun n =>
    (served reply first n).isSome && !samePage p fromSpec reply first n).flatMap fun n =>
      pageItems p (payloadAt fromSpec reply first n)

/-- Nothing is merged twice. -/
structure Once (args : Json) : Prop where
  items : (followUps p fromSpec reply args first.result).final.items =
    advancedItems p fromSpec reply first (followUps p fromSpec reply args first.result).sent.length
  /-- The upstream has not advanced at all. -/
  only : samePage p fromSpec reply first 1 = true →
    (followUps p fromSpec reply args first.result).final.items =
      pageItems p (resultPayload first.result fromSpec)

end Spec

section Once

variable {p : Paginate} {fromSpec : Bool} {reply : Nat → Option Json} {first : FirstPage}

/-- Behind such a page the loop stops. -/
theorem samePage_halts {n : Nat} (h : samePage p fromSpec reply first n = true) :
    halts p fromSpec reply first n = true := by
  cases n with
  | zero => cases h
  | succ n =>
    have hr : repeats p fromSpec reply first (n + 1) = true := (Bool.and_eq_true _ _ |>.mp h).2
    simp [halts, hr]

/-- Left out are only pages without items. -/
theorem flatMap_filter_eq {f : Nat → List Json} {keep : Nat → Bool} {ns : List Nat} :
    ns.flatMap f = (ns.filter keep).flatMap f ↔ ∀ n ∈ ns, keep n = false → f n = [] := by
  induction ns with
  | nil => simp
  | cons n ns ih =>
    rw [List.forall_mem_cons, List.flatMap_cons]
    by_cases hk : keep n = true
    · simp [List.filter_cons_of_pos hk, ih, hk]
    · rw [List.filter_cons_of_neg hk]
      constructor
      · intro h
        have hle : ((ns.filter keep).flatMap f).length ≤ (ns.flatMap f).length :=
          (List.Sublist.flatMap List.filter_sublist f).length_le
        have hlen := congrArg List.length h
        rw [List.length_append] at hlen
        have hnil : f n = [] := List.eq_nil_of_length_eq_zero (by omega)
        rw [hnil, List.nil_append] at h
        exact ⟨fun _ => hnil, ih.mp h⟩
      · intro ⟨hn, hns⟩
        rw [hn (by simpa using hk), List.nil_append]
        exact ih.mpr hns

/-- The pages the loop asks for, and gets. -/
def Reaches (p : Paginate) (fromSpec : Bool) (reply : Nat → Option Json) (first : FirstPage) (n : Nat) :
    Prop :=
  ∀ k < n, halts p fromSpec reply first k = false ∧ (served reply first (k + 1)).isSome

theorem LastPage.reaches_iff {last n : Nat} (h : LastPage p fromSpec reply first last) :
    Reaches p fromSpec reply first n ↔ n ≤ last := by
  constructor
  · intro hr
    by_contra hlt
    obtain ⟨hh, hs⟩ := hr last (by omega)
    rcases h.stops with hstop | hstop
    · rw [hstop] at hh
      cases hh
    · rw [hstop] at hs
      cases hs
  · intro hle k hk
    exact h.followed k (by omega)

theorem Ends.advancedItems_eq {out : Outcome} {last : Nat} (h : Ends p fromSpec reply first 0 out last) :
    advancedItems p fromSpec reply first out.sent.length =
      ((List.range (last + 1)).filter fun n => !samePage p fromSpec reply first n).flatMap fun n =>
        pageItems p (payloadAt fromSpec reply first n) := by
  have hserved : ∀ n ∈ List.range (last + 1),
      ((served reply first n).isSome && !samePage p fromSpec reply first n) =
      !samePage p fromSpec reply first n := by
    intro n hn
    obtain ⟨r, hr⟩ := h.lastPage.exists_served (Nat.le_of_lt_succ (List.mem_range.mp hn))
    rw [hr, Option.isSome_some, Bool.true_and]
  have hsent := h.sent
  rw [Nat.zero_add] at hsent
  rw [advancedItems, hsent]
  split
  · rw [Nat.add_zero, List.filter_congr hserved]
  · next hh =>
    -- the call after the last page has failed
    have hnone : served reply first (last + 1) = none := h.lastPage.stops.resolve_left hh
    rw [List.range_succ, List.filter_append, List.filter_congr hserved]
    simp [hnone]

theorem Ends.items_of_same {out : Outcome} {last : Nat} (h : Ends p fromSpec reply first 0 out last)
    (hempty : ∀ n, Reaches p fromSpec reply first n → samePage p fromSpec reply first n = true →
      pageItems p (payloadAt fromSpec reply first n) = [])
    (hone : samePage p fromSpec reply first 1 = true) :
    out.final.items = pageItems p (resultPayload first.result fromSpec) := by
  have hfirst : itemsUpTo p fromSpec reply first 0 = pageItems p (resultPayload first.result fromSpec) := by
    simp [itemsUpTo, payloadAt, served]
  have hle : last ≤ 1 := by
    by_contra hlt
    have hh := (h.lastPage.followed 1 (by omega)).1
    rw [samePage_halts hone] at hh
    cases hh
  rw [h.items]
  obtain rfl | rfl : last = 0 ∨ last = 1 := by omega
  · exact hfirst
  · rw [itemsUpTo_succ, hempty 1 (h.lastPage.reaches_iff.mpr (Nat.le_refl 1)) hone, List.append_nil, hfirst]

/-- **No duplicates.** What is merged is what the upstream has advanced on exactly when no page
the loop gets is the page before once more, with items in it. -/
theorem once_iff (p : Paginate) (fromSpec : Bool) (reply : Nat → Option Json) (args : Json)
    (first : FirstPage) :
    Once p fromSpec reply first args ↔ ∀ n, Reaches p fromSpec reply first n →
      samePage p fromSpec reply first n = true → pageItems p (payloadAt fromSpec reply first n) = [] := by
  obtain ⟨last, hend⟩ := followUps_spec p fromSpec reply first args
  have hadvanced := hend.advancedItems_eq
  constructor
  · intro h n hn hsame
    have hitems := h.items
    rw [hend.items, hadvanced] at hitems
    refine flatMap_filter_eq.mp hitems n ?_ (by simp [hsame])
    rw [List.mem_range]
    have := hend.lastPage.reaches_iff.mp hn
    omega
  · intro h
    refine ⟨?_, hend.items_of_same h⟩
    rw [hend.items, hadvanced]
    refine flatMap_filter_eq.mpr fun n hn hk => ?_
    rw [List.mem_range] at hn
    exact h n (hend.lastPage.reaches_iff.mpr (by omega)) (by simpa using hk)

def ignoringConfig : Paginate := { listConfig with maxPages := 10 }

/-- An upstream that ignores the cursor: its page is merged twice. -/
theorem ignored_cursor_merges_twice :
    (followUps ignoringConfig false (fun _ => some listFirst.result) (.obj [])
        listFirst.result).final.items = [.str "a", .str "a"] ∧
      samePage ignoringConfig false (fun _ => some listFirst.result) listFirst 1 = true ∧
      ¬ Once ignoringConfig false (fun _ => some listFirst.result) listFirst (.obj []) := by
  have hitems : (followUps ignoringConfig false (fun _ => some listFirst.result) (.obj [])
      listFirst.result).final.items = [.str "a", .str "a"] := by decide +kernel
  have hsame : samePage ignoringConfig false (fun _ => some listFirst.result) listFirst 1 =
      true := by decide +kernel
  refine ⟨hitems, hsame, fun h => ?_⟩
  have honly := h.only hsame
  rw [hitems] at honly
  exact absurd honly (by decide +kernel)

end Once

end MinMcp.L4.Pages
