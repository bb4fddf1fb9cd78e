import MinMcp.Core.Text.Lines
import Mathlib.Data.List.Induction

/-!
# Event streams

The data of a stream of server-sent events: blank lines separate the events, and an
event's data are its `data:` lines joined by line feeds.

* `scan`: one pass over the lines with the data read so far, handing on what is not
  empty.
* `scan_eq_events`: the pass hands on the data of every event, up to line feeds in front
  and events without data.
-/
namespace MinMcp.Core.Text

def trimStart (cs : List Char) : List Char := cs.dropWhile isWhitespace

/-- What a `data:` line carries. -/
def payload : List Char → Option (List Char)
  | 'd' :: 'a' :: 't' :: 'a' :: ':' :: rest => some (trimStart rest)
  | _ => none

def eventData (block : List (List Char)) : List Char := ['\n'].intercalate (block.filterMap payload)

/-- The data of the events, in order. -/
def events (text : List Char) : List (List Char) := ((lines text).splitOnP isBlankLine).map eventData

/-- A `data:` line behind the data read so far. -/
def pushData (data rest : List Char) : List Char := if data = [] then rest else data ++ '\n' :: rest

/-- The data handed on line by line, with `data` read of the event under way. -/
def scan (data : List Char) : List (List Char) → List (List Char)
  | [] => if data = [] then [] else [data]
  | l :: ls =>
    match payload l with
    | some rest => scan (pushData data rest) ls
    | none => if isBlankLine l ∧ data ≠ [] then data :: scan [] ls else scan data ls

theorem not_blank_of_payload {l p : List Char} (h : payload l = some p) : isBlankLine l = false := by
  unfold payload at h
  split at h
  · exact List.all_eq_false.mpr ⟨'d', List.mem_cons_self, by decide⟩
  · cases h

theorem intercalate_snoc (sep x : List Char) : ∀ {l : List (List Char)}, l ≠ [] →
    sep.intercalate (l ++ [x]) = sep.intercalate l ++ sep ++ x
  | [], h => absurd rfl h
  | [a], _ => by simp [List.intercalate]
  | a :: b :: xs, _ => by
    have ih := intercalate_snoc sep x (l := b :: xs) (by simp)
    simp only [List.intercalate, List.cons_append, List.intersperse_cons_cons, List.flatten_cons] at ih ⊢
    rw [ih]
    simp only [List.append_assoc]

/-- The data of an event as the pass joins them. -/
def joined (block : List (List Char)) : List Char := (block.filterMap payload).foldl pushData []

theorem joined_payload {l p : List Char} (h : payload l = some p) (block : List (List Char)) :
    joined (block ++ [l]) = pushData (joined block) p := by
  simp only [joined, List.filterMap_append, List.filterMap_cons, h, List.filterMap_nil, List.foldl_append,
    List.foldl_cons, List.foldl_nil]

theorem joined_other {l : List Char} (h : payload l = none) (block : List (List Char)) :
    joined (block ++ [l]) = joined block := by
  simp only [joined, List.filterMap_append, List.filterMap_cons, h, List.filterMap_nil, List.append_nil]

/-- Joining one after the other loses only line feeds in front. -/
theorem eventData_eq_joined (block : List (List Char)) :
    ∃ k, eventData block = List.replicate k '\n' ++ joined block := by
  unfold eventData joined
  generalize block.filterMap payload = xs
  induction xs using List.reverseRecOn with
  | nil => exact ⟨0, rfl⟩
  | append_singleton xs x ih =>
    obtain ⟨k, hk⟩ := ih
    rw [List.foldl_append, List.foldl_cons, List.foldl_nil]
    by_cases hx : xs = []
    · subst hx
      exact ⟨0, by simp [pushData, List.intercalate]⟩
    · rw [intercalate_snoc _ _ hx, hk]
      by_cases hd : xs.foldl pushData [] = []
      · refine ⟨k + 1, ?_⟩
        rw [hd, pushData, if_pos rfl, List.append_nil, List.replicate_succ']
      · refine ⟨k, ?_⟩
        rw [pushData, if_neg hd]
        simp only [List.append_assoc, List.singleton_append]

theorem modifyHead_nil_append (bs : List (List (List Char))) : bs.modifyHead ([] ++ ·) = bs := by
  cases bs <;> rfl

theorem modifyHead_append_cons (block : List (List Char)) (l : List Char) (bs : List (List (List Char))) :
    (bs.modifyHead (l :: ·)).modifyHead (block ++ ·) = bs.modifyHead ((block ++ [l]) ++ ·) := by
  cases bs <;> simp

section Reader

variable {β : Type} (f : List Char → Option β)

/-- The pass from inside an event, for a reader that ignores line feeds in front and
gets nothing from an empty text. -/
theorem scan_block (hf : ∀ k cs, f (List.replicate k '\n' ++ cs) = f cs) (hnil : f [] = none)
    (ls block : List (List Char)) :
    (scan (joined block) ls).filterMap f =
      (((ls.splitOnP isBlankLine).modifyHead (block ++ ·)).map eventData).filterMap f := by
  have hread : ∀ block, f (eventData block) = f (joined block) := by
    intro block
    obtain ⟨k, hk⟩ := eventData_eq_joined block
    rw [hk, hf]
  induction ls generalizing block with
  | nil =>
    simp only [scan, List.splitOnP_nil, List.modifyHead_cons, List.append_nil, List.map_cons,
      List.map_nil]
    split
    · next h =>
      have hn : f (eventData block) = none := by rw [hread, h, hnil]
      rw [List.filterMap_cons_none hn]
    · rw [List.filterMap_cons, List.filterMap_cons, hread]
  | cons l ls ih =>
    rw [scan, List.splitOnP_cons_eq_if_modifyHead]
    cases hp : payload l with
    | some rest =>
      simp only [not_blank_of_payload hp, Bool.false_eq_true, if_false, modifyHead_append_cons]
      rw [← joined_payload hp]
      exact ih (block ++ [l])
    | none =>
      by_cases hb : isBlankLine l = true
      · -- the event ends here
        have hrest : (scan [] ls).filterMap f = ((ls.splitOnP isBlankLine).map eventData).filterMap f := by
          have := ih []
          rwa [modifyHead_nil_append] at this
        simp only [hb, if_true, true_and, List.modifyHead_cons, List.append_nil, List.map_cons]
        by_cases hd : joined block = []
        · have hn : f (eventData block) = none := by rw [hread, hd, hnil]
          rw [if_neg (not_not_intro hd), List.filterMap_cons_none hn, hd]
          exact hrest
        · rw [if_pos hd, List.filterMap_cons, List.filterMap_cons, hread, hrest]
      · simp only [hb, Bool.false_eq_true, if_false, false_and, modifyHead_append_cons]
        rw [← joined_other hp]
        exact ih (block ++ [l])

theorem scan_eq_events (hf : ∀ k cs, f (List.replicate k '\n' ++ cs) = f cs) (hnil : f [] = none)
    (text : List Char) : (scan [] (lines text)).filterMap f = (events text).filterMap f := by
  have h := scan_block f hf hnil (lines text) []
  rw [modifyHead_nil_append] at h
  exact h

end Reader

end MinMcp.Core.Text
