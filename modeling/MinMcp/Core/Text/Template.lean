import MinMcp.Core.Text.Replace

/-!
# Templates with `{name}` placeholders

A template is a list of pieces: literal characters and holes. `pieces` finds the
holes of a text (a `{`, a name without braces, a `}`); any other brace is a
literal. `fill f` is the simultaneous substitution: every hole with a value
becomes that value, which is not looked at again.

* `render_pieces`: the pieces of a text are the text.
* `replaceAll_render_iff`: replacing the text `{k}` in a rendered template is
  filling the holes named `k` **iff** every occurrence of that text is one of
  those holes.
-/
namespace MinMcp.Core.Text

inductive Piece where
  | lit (c : Char)
  | hole (name : List Char)
  deriving DecidableEq, Repr

def placeholder (name : List Char) : List Char := '{' :: (name ++ ['}'])

/-- The name in front of the next `}`, when no `{` comes first. -/
def holeName : List Char → Option (List Char)
  | [] => none
  | c :: cs =>
    if c = '}' then some [] else if c = '{' then none else (holeName cs).map (c :: ·)

/-- `n` characters of the last hole are still to be skipped. -/
def piecesGo : Nat → List Char → List Piece
  | _, [] => []
  | n + 1, _ :: cs => piecesGo n cs
  | 0, c :: cs =>
    if c = '{' then
      match holeName cs with
      | some name => .hole name :: piecesGo (name.length + 1) cs
      | none => .lit c :: piecesGo 0 cs
    else .lit c :: piecesGo 0 cs

def pieces (text : List Char) : List Piece := piecesGo 0 text

def Piece.render : Piece → List Char
  | .lit c => [c]
  | .hole name => placeholder name

def render (ps : List Piece) : List Char := ps.flatMap Piece.render

def fill (f : List Char → Option (List Char)) (ps : List Piece) : List Piece :=
  ps.flatMap fun
    | .lit c => [.lit c]
    | .hole name =>
      match f name with
      | some e => e.map Piece.lit
      | none => [.hole name]

/-- Fill the holes named `k` only. -/
def fillOne (k e : List Char) (ps : List Piece) : List Piece :=
  fill (fun name => if name = k then some e else none) ps

def BraceFree (cs : List Char) : Prop := '{' ∉ cs ∧ '}' ∉ cs

instance (cs : List Char) : Decidable (BraceFree cs) := inferInstanceAs (Decidable (_ ∧ _))

/-- The names of the holes hold no brace. -/
def NamesOk (ps : List Piece) : Prop := ∀ name, Piece.hole name ∈ ps → BraceFree name

@[simp] theorem render_nil : render [] = [] := rfl

@[simp] theorem render_lit (c : Char) (ps : List Piece) : render (.lit c :: ps) = c :: render ps := rfl

@[simp] theorem render_hole (name : List Char) (ps : List Piece) :
    render (.hole name :: ps) = placeholder name ++ render ps := rfl

@[simp] theorem render_append (ps qs : List Piece) : render (ps ++ qs) = render ps ++ render qs :=
  List.flatMap_append

@[simp] theorem render_map_lit (cs : List Char) : render (cs.map Piece.lit) = cs := by
  induction cs with
  | nil => rfl
  | cons c cs ih => rw [List.map_cons, render_lit, ih]

@[simp] theorem fill_nil (f : List Char → Option (List Char)) : fill f [] = [] := rfl

@[simp] theorem fill_lit (f : List Char → Option (List Char)) (c : Char) (ps : List Piece) :
    fill f (.lit c :: ps) = .lit c :: fill f ps := rfl

theorem fill_hole_some {f : List Char → Option (List Char)} {name e : List Char}
    (h : f name = some e) (ps : List Piece) :
    fill f (.hole name :: ps) = e.map Piece.lit ++ fill f ps := by
  simp [fill, h]

theorem fill_hole_none {f : List Char → Option (List Char)} {name : List Char}
    (h : f name = none) (ps : List Piece) :
    fill f (.hole name :: ps) = .hole name :: fill f ps := by
  simp [fill, h]

@[simp] theorem fillOne_nil (k e : List Char) : fillOne k e [] = [] := rfl

@[simp] theorem fillOne_lit (k e : List Char) (c : Char) (ps : List Piece) :
    fillOne k e (.lit c :: ps) = .lit c :: fillOne k e ps := rfl

theorem fillOne_self (k e : List Char) (ps : List Piece) :
    fillOne k e (.hole k :: ps) = e.map Piece.lit ++ fillOne k e ps :=
  fill_hole_some (if_pos rfl) ps

theorem fillOne_other {k name : List Char} (h : name ≠ k) (e : List Char) (ps : List Piece) :
    fillOne k e (.hole name :: ps) = .hole name :: fillOne k e ps :=
  fill_hole_none (if_neg h) ps

theorem fillOne_append_lits (k e cs : List Char) (ps : List Piece) :
    fillOne k e (cs.map Piece.lit ++ ps) = cs.map Piece.lit ++ fillOne k e ps := by
  induction cs with
  | nil => rfl
  | cons c cs ih => rw [List.map_cons, List.cons_append, fillOne_lit, ih]; rfl

/-! ## Finding the holes -/

theorem holeName_some {cs name : List Char} (h : holeName cs = some name) :
    cs = name ++ '}' :: cs.drop (name.length + 1) ∧ BraceFree name := by
  induction cs generalizing name with
  | nil => cases h
  | cons c cs ih =>
    rw [holeName] at h
    split at h
    · next hc => cases h; subst hc; exact ⟨rfl, by decide⟩
    · next hc =>
      split at h
      · cases h
      · next ho =>
        rw [Option.map_eq_some_iff] at h
        obtain ⟨name, hn, rfl⟩ := h
        obtain ⟨he, hb⟩ := ih hn
        refine ⟨by simpa using he, ?_⟩
        simp only [BraceFree, List.mem_cons, not_or]
        exact ⟨⟨Ne.symm ho, hb.1⟩, Ne.symm hc, hb.2⟩

theorem piecesGo_drop (n : Nat) (cs : List Char) : piecesGo n cs = pieces (cs.drop n) := by
  induction cs generalizing n with
  | nil => cases n <;> simp [piecesGo, pieces]
  | cons c cs ih =>
    cases n with
    | zero => rfl
    | succ n => rw [piecesGo, ih, List.drop_succ_cons]

/-- The two moves of the scan: a hole, or one literal character. -/
theorem pieces_cons (c : Char) (cs : List Char) :
    (∃ name, c = '{' ∧ BraceFree name ∧
      pieces (c :: cs) = .hole name :: pieces (cs.drop (name.length + 1)) ∧
      cs = name ++ '}' :: cs.drop (name.length + 1)) ∨
    pieces (c :: cs) = .lit c :: pieces cs := by
  by_cases hc : c = '{'
  · cases hn : holeName cs with
    | some name =>
      obtain ⟨he, hb⟩ := holeName_some hn
      refine Or.inl ⟨name, hc, hb, ?_, he⟩
      rw [pieces, piecesGo, if_pos hc, hn]
      exact congrArg _ (piecesGo_drop _ cs)
    | none => right; rw [pieces, piecesGo, if_pos hc, hn]; rfl
  · right; rw [pieces, piecesGo, if_neg hc]; rfl

theorem render_pieces (text : List Char) : render (pieces text) = text := by
  induction hl : text.length using Nat.strongRecOn generalizing text with
  | ind n ih =>
    cases text with
    | nil => rfl
    | cons c cs =>
      simp only [List.length_cons] at hl
      rcases pieces_cons c cs with ⟨name, rfl, -, hp, he⟩ | hp
      · have hlen : (cs.drop (name.length + 1)).length < n := by rw [List.length_drop]; omega
        rw [hp, render_hole, ih _ hlen _ rfl, placeholder, List.cons_append, List.append_assoc]
        exact congrArg _ he.symm
      · rw [hp, render_lit, ih _ (by omega) _ rfl]

theorem namesOk_pieces (text : List Char) : NamesOk (pieces text) := by
  induction hl : text.length using Nat.strongRecOn generalizing text with
  | ind n ih =>
    cases text with
    | nil => intro name h; cases h
    | cons c cs =>
      simp only [List.length_cons] at hl
      intro name h
      rcases pieces_cons c cs with ⟨name', -, hb, hp, -⟩ | hp
      · rw [hp, List.mem_cons] at h
        rcases h with h | h
        · cases h; exact hb
        · exact ih _ (by rw [List.length_drop]; omega) _ rfl name h
      · rw [hp, List.mem_cons] at h
        rcases h with h | h
        · cases h
        · exact ih _ (by omega) _ rfl name h

theorem namesOk_tail {p : Piece} {ps : List Piece} (h : NamesOk (p :: ps)) : NamesOk ps :=
  fun name hm => h name (List.mem_cons_of_mem _ hm)

theorem holeName_append {name : List Char} (h : BraceFree name) (rest : List Char) :
    holeName (name ++ '}' :: rest) = some name := by
  induction name with
  | nil => rfl
  | cons c cs ih =>
    simp only [BraceFree, List.mem_cons, not_or] at h
    rw [List.cons_append, holeName, if_neg (Ne.symm h.2.1), if_neg (Ne.symm h.1.1),
      ih ⟨h.1.2, h.2.2⟩]
    rfl

/-- A template whose literals hold no `{` is found again in its text. -/
theorem pieces_render {ps : List Piece} (hl : Piece.lit '{' ∉ ps) (hn : NamesOk ps) :
    pieces (render ps) = ps := by
  induction ps with
  | nil => rfl
  | cons p ps ih =>
    have ih := ih (fun h => hl (List.mem_cons_of_mem _ h)) (namesOk_tail hn)
    cases p with
    | lit c =>
      have hc : c ≠ '{' := fun h => hl (h ▸ List.mem_cons_self)
      rw [render_lit, pieces, piecesGo, if_neg hc, ← pieces, ih]
    | hole n =>
      have hname := holeName_append (hn n List.mem_cons_self) (render ps)
      have he : placeholder n ++ render ps = '{' :: (n ++ '}' :: render ps) := by simp [placeholder]
      have hd : (n ++ '}' :: render ps).drop (n.length + 1) = render ps := by
        rw [List.drop_append, List.drop_of_length_le (by omega)]
        simp
      rw [render_hole, he, pieces, piecesGo, if_pos rfl, hname]
      simp only [piecesGo_drop, hd, ih]

theorem hole_mem_fill {f : List Char → Option (List Char)} {ps : List Piece} {name : List Char}
    (h : Piece.hole name ∈ fill f ps) : Piece.hole name ∈ ps ∧ f name = none := by
  induction ps with
  | nil => cases h
  | cons p ps ih =>
    cases p with
    | lit c =>
      rw [fill_lit, List.mem_cons] at h
      rcases h with h | h
      · cases h
      · exact ⟨List.mem_cons_of_mem _ (ih h).1, (ih h).2⟩
    | hole n =>
      cases hn : f n with
      | some e =>
        rw [fill_hole_some hn, List.mem_append] at h
        rcases h with h | h
        · simp at h
        · exact ⟨List.mem_cons_of_mem _ (ih h).1, (ih h).2⟩
      | none =>
        rw [fill_hole_none hn, List.mem_cons] at h
        rcases h with h | h
        · cases h; exact ⟨List.mem_cons_self, hn⟩
        · exact ⟨List.mem_cons_of_mem _ (ih h).1, (ih h).2⟩

theorem hole_mem_fill_of_none {f : List Char → Option (List Char)} {ps : List Piece}
    {name : List Char} (h : Piece.hole name ∈ ps) (hf : f name = none) :
    Piece.hole name ∈ fill f ps :=
  List.mem_flatMap.mpr ⟨_, h, by simp [hf]⟩

theorem namesOk_fill {ps : List Piece} (h : NamesOk ps) (f : List Char → Option (List Char)) :
    NamesOk (fill f ps) := fun name hm => h name (hole_mem_fill hm).1

/-- Filling in two steps is filling at once, the first value counting. -/
theorem fillOne_fill (k e : List Char) (f : List Char → Option (List Char)) (ps : List Piece) :
    fillOne k e (fill f ps) = fill (fun n => (f n).or (if n = k then some e else none)) ps := by
  induction ps with
  | nil => rfl
  | cons p ps ih =>
    cases p with
    | lit c => rw [fill_lit, fillOne_lit, ih, fill_lit]
    | hole n =>
      cases hn : f n with
      | some v =>
        rw [fill_hole_some hn, fillOne_append_lits, ih, fill_hole_some (e := v) (by simp [hn])]
      | none =>
        rw [fill_hole_none hn]
        by_cases hk : n = k
        · subst hk
          rw [fillOne_self, ih, fill_hole_some (e := e) (by simp [hn])]
        · rw [fillOne_other hk, ih, fill_hole_none (by simp [hn, hk])]

/-- Filling a name that no hole has changes nothing. -/
theorem fillOne_of_notMem {k : List Char} (e : List Char) {ps : List Piece}
    (h : Piece.hole k ∉ ps) : fillOne k e ps = ps := by
  induction ps with
  | nil => rfl
  | cons p ps ih =>
    simp only [List.mem_cons, not_or] at h
    cases p with
    | lit c => exact congrArg _ (ih h.2)
    | hole n =>
      have hk : n ≠ k := fun he => h.1 (he ▸ rfl)
      rw [fillOne_other hk, ih h.2]

/-! ## Replacement as filling -/

theorem openBrace_notMem_close {name : List Char} (h : BraceFree name) : '{' ∉ name ++ ['}'] := by
  simp [h.1]

/-- Two brace-free names cannot be confused. -/
theorem placeholder_unique {k name rest : List Char} (hk : BraceFree k) (hn : BraceFree name)
    (h : placeholder k <+: placeholder name ++ rest) : k = name := by
  obtain ⟨suf, h⟩ := h
  simp only [placeholder, List.cons_append, List.append_assoc, List.nil_append, List.cons.injEq,
    true_and] at h
  induction k generalizing name with
  | nil =>
    cases name with
    | nil => rfl
    | cons c cs =>
      simp only [List.nil_append, List.cons_append, List.cons.injEq] at h
      exact absurd (h.1 ▸ List.mem_cons_self) hn.2
  | cons d ds ih =>
    cases name with
    | nil =>
      simp only [List.nil_append, List.cons_append, List.cons.injEq] at h
      exact absurd (h.1 ▸ List.mem_cons_self) hk.2
    | cons c cs =>
      simp only [List.cons_append, List.cons.injEq] at h
      have hds : BraceFree ds := ⟨fun hm => hk.1 (List.mem_cons_of_mem _ hm),
        fun hm => hk.2 (List.mem_cons_of_mem _ hm)⟩
      have hcs : BraceFree cs := ⟨fun hm => hn.1 (List.mem_cons_of_mem _ hm),
        fun hm => hn.2 (List.mem_cons_of_mem _ hm)⟩
      rw [h.1, ih hds hcs h.2]

theorem occ_placeholder_append {k : List Char} (hk : BraceFree k) (rest : List Char) :
    occ (placeholder k) (placeholder k ++ rest) = 1 + occ (placeholder k) rest := by
  have hp : placeholder k <+: '{' :: (k ++ ['}'] ++ rest) := List.prefix_append (placeholder k) rest
  have he : placeholder k ++ rest = '{' :: (k ++ ['}'] ++ rest) := rfl
  rw [he, occ_cons_of_match hp]
  exact congrArg _ (occ_append_of_notMem (openBrace_notMem_close hk) rest)

theorem occ_placeholder_other {k name : List Char} (hk : BraceFree k) (hn : BraceFree name)
    (hne : name ≠ k) (rest : List Char) :
    occ (placeholder k) (placeholder name ++ rest) = occ (placeholder k) rest := by
  have hp : ¬ placeholder k <+: '{' :: (name ++ ['}'] ++ rest) := fun h =>
    hne (placeholder_unique hk hn h).symm
  have he : placeholder name ++ rest = '{' :: (name ++ ['}'] ++ rest) := rfl
  rw [he, occ_cons_of_mismatch hp]
  exact occ_append_of_notMem (openBrace_notMem_close hn) rest

/-- Every hole named `k` is an occurrence of `{k}`. -/
theorem count_hole_le_occ {k : List Char} (hk : BraceFree k) {ps : List Piece} (h : NamesOk ps) :
    ps.count (.hole k) ≤ occ (placeholder k) (render ps) := by
  induction ps with
  | nil => simp
  | cons p ps ih =>
    have ih := ih (namesOk_tail h)
    cases p with
    | lit c =>
      rw [render_lit, List.count_cons_of_ne (by simp), occ]
      omega
    | hole n =>
      rw [render_hole]
      by_cases hn : n = k
      · subst hn
        rw [List.count_cons_self, occ_placeholder_append hk]
        omega
      · rw [List.count_cons_of_ne (by simpa using hn),
          occ_placeholder_other hk (h n List.mem_cons_self) hn]
        exact ih

/-- Without literal `{`, the text `{k}` of a brace-free name occurs only as a hole. -/
theorem occ_eq_count {k : List Char} (hk : BraceFree k) {ps : List Piece}
    (hl : Piece.lit '{' ∉ ps) (hn : NamesOk ps) :
    occ (placeholder k) (render ps) = ps.count (.hole k) := by
  induction ps with
  | nil => rfl
  | cons p ps ih =>
    have ih := ih (fun h => hl (List.mem_cons_of_mem _ h)) (namesOk_tail hn)
    cases p with
    | lit c =>
      have hc : '{' ≠ c := fun h => hl (h ▸ List.mem_cons_self)
      have hnp : ¬ placeholder k <+: c :: render ps := fun h => hc (List.cons_prefix_cons.mp h).1
      rw [render_lit, occ_cons_of_mismatch hnp, ih, List.count_cons_of_ne (by simp)]
    | hole n =>
      rw [render_hole]
      by_cases h : n = k
      · subst h
        rw [occ_placeholder_append hk, ih, List.count_cons_self, Nat.add_comm]
      · rw [occ_placeholder_other hk (hn n List.mem_cons_self) h, ih,
          List.count_cons_of_ne (by simpa using h)]

/-- When `{k}` occurs only as holes, replacing it fills exactly those. -/
theorem replaceAll_render {k : List Char} (hk : BraceFree k) (e : List Char) {ps : List Piece}
    (h : NamesOk ps) (ho : occ (placeholder k) (render ps) = ps.count (.hole k)) :
    replaceAll (placeholder k) e (render ps) = render (fillOne k e ps) := by
  induction ps with
  | nil => rfl
  | cons p ps ih =>
    have hps := namesOk_tail h
    have hle := count_hole_le_occ hk hps
    cases p with
    | lit c =>
      rw [render_lit, List.count_cons_of_ne (by simp)] at ho
      have hnp : ¬ placeholder k <+: c :: render ps := fun hp => by
        rw [occ_cons_of_match hp] at ho; omega
      rw [occ_cons_of_mismatch hnp] at ho
      rw [render_lit, replaceAll_cons_of_mismatch hnp, ih hps ho]
      rfl
    | hole n =>
      rw [render_hole] at ho ⊢
      by_cases hn : n = k
      · subst hn
        rw [List.count_cons_self, occ_placeholder_append hk] at ho
        rw [replaceAll_append_match (by simp [placeholder]), ih hps (by omega), fillOne_self,
          render_append, render_map_lit]
      · have hno := h n List.mem_cons_self
        rw [List.count_cons_of_ne (by simpa using hn), occ_placeholder_other hk hno hn] at ho
        have hnp : ¬ placeholder k <+: '{' :: (n ++ ['}'] ++ render ps) := fun hp =>
          hn (placeholder_unique hk hno hp).symm
        have he : placeholder n ++ render ps = '{' :: (n ++ ['}'] ++ render ps) := rfl
        rw [he, replaceAll_cons_of_mismatch hnp]
        rw [placeholder, replaceAll_append_of_notMem (openBrace_notMem_close hno), ← placeholder,
          ih hps ho, fillOne_other hn, render_hole]
        rfl

theorem count_render_fillOne {k e : List Char} (hk : BraceFree k) (he : '{' ∉ e) (ps : List Piece) :
    (render (fillOne k e ps)).count '{' + ps.count (.hole k) = (render ps).count '{' := by
  induction ps with
  | nil => rfl
  | cons p ps ih =>
    cases p with
    | lit c =>
      have hl : (Piece.lit c :: ps).count (.hole k) = ps.count (.hole k) :=
        List.count_cons_of_ne (by simp)
      rw [fillOne_lit, render_lit, render_lit, hl, List.count_cons, List.count_cons]
      omega
    | hole n =>
      rw [render_hole, List.count_append]
      by_cases hn : n = k
      · subst hn
        have hc : (placeholder n).count '{' = 1 := by
          rw [placeholder, List.count_cons_self, List.count_eq_zero.mpr (openBrace_notMem_close hk)]
        rw [fillOne_self, render_append, render_map_lit, List.count_append, List.count_cons_self,
          List.count_eq_zero.mpr he, hc]
        omega
      · rw [fillOne_other hn, render_hole, List.count_append, List.count_cons_of_ne (by simpa using hn)]
        omega

/-- **Replacement is substitution.** Replacing `{k}` by a brace-free text fills
the holes named `k` and nothing else, iff `{k}` occurs only as such a hole. -/
theorem replaceAll_render_iff (k : List Char) {e : List Char} (he : '{' ∉ e) {ps : List Piece}
    (h : NamesOk ps) : replaceAll (placeholder k) e (render ps) = render (fillOne k e ps) ↔
      occ (placeholder k) (render ps) = ps.count (.hole k) := by
  by_cases hk : BraceFree k
  · refine ⟨fun heq => ?_, replaceAll_render hk e h⟩
    have h1 := count_replaceAll_add_occ (openBrace_notMem_close hk) he (render ps)
    have h2 := count_render_fillOne hk he ps
    rw [← placeholder, heq] at h1
    omega
  · -- a name with a brace is no hole's name, so nothing may be replaced
    have hmem : Piece.hole k ∉ ps := fun hm => hk (h k hm)
    rw [fillOne_of_notMem e hmem, List.count_eq_zero.mpr hmem]
    refine ⟨fun heq => ?_, replaceAll_eq_self⟩
    by_contra hocc
    have hne : placeholder k ≠ [] := by simp [placeholder]
    have hlt := count_replaceAll_lt hne (by simp [placeholder]) he hocc
    rw [heq] at hlt
    omega

/-- A rendered template holds a `{` iff a hole or a literal `{` is left. -/
theorem openBrace_mem_render {ps : List Piece} :
    '{' ∈ render ps ↔ Piece.lit '{' ∈ ps ∨ ∃ name, Piece.hole name ∈ ps := by
  induction ps with
  | nil => simp
  | cons p ps ih =>
    cases p with
    | lit c => simp [ih, or_assoc]
    | hole n => simp [placeholder]

end MinMcp.Core.Text
