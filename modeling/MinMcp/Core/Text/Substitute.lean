import MinMcp.Core.Text.Replace

/-!
# Replacing several patterns

A text in which several patterns are replaced one after the other is read again in each round, with
the values of the rounds before in it. `substAll` reads it once and replaces whichever pattern comes.

* `Foreign`: two texts do not meet, wherever they stand.
* `replaceEach_eq_substAll`: when every pattern is foreign to the patterns and the values before it,
  the rounds are that one reading.
* `substAll_congr`: the values of patterns that do not occur do not matter.
* `substAll_inj`: from two results, the value of a pattern that occurs can be told.
-/
namespace MinMcp.Core.Text

variable {α : Type}

/-- Patterns and what is put in their place. -/
abbrev Rules (α : Type) := List (List α × List α)

/-- `p` does not begin inside `w`, whatever is behind `w`. -/
def Clear (p w : List α) : Prop := ∀ b, b <:+ w → b ≠ [] → ¬ p <+: b ∧ ¬ b <+: p

def Foreign (u w : List α) : Prop := Clear u w ∧ Clear w u

/-- Every pattern is foreign to the patterns and the values of the rules before it. -/
def Separate (rs : Rules α) : Prop := rs.Pairwise fun r s => Foreign s.1 r.1 ∧ Foreign s.1 r.2

theorem Clear.tail {p w : List α} {x : α} (h : Clear p (x :: w)) : Clear p w := fun b hb hne =>
  h b (hb.trans (List.suffix_cons x w)) hne

/-- A pattern that begins with a character of its own is clear of texts without it. -/
theorem clear_of_notMem {p w : List α} {x : α} (h : x ∉ w) : Clear (x :: p) w := by
  intro b hb hne
  constructor
  · exact fun hp => h (hb.subset (hp.subset List.mem_cons_self))
  · cases b with
    | nil => exact absurd rfl hne
    | cons c b =>
      intro hp
      exact h (hb.subset ((List.cons_prefix_cons.mp hp).1 ▸ List.mem_cons_self))

/-- A text that ends with a character of its own is clear of texts without it, unless one is in it. -/
theorem clear_of_absent {p w : List α} {x : α} (h : x ∉ w) (hw : ¬ w <:+: p ++ [x]) :
    Clear w (p ++ [x]) := by
  intro b hb hne
  refine ⟨fun hp => hw (hp.isInfix.trans hb.isInfix), fun hp => ?_⟩
  obtain ⟨t, ht⟩ := hb
  have hx : b.getLast? = some x := by
    have hl := congrArg List.getLast? ht
    rw [List.getLast?_append_of_ne_nil _ hne, List.getLast?_concat] at hl
    exact hl
  exact h (hp.subset (List.mem_of_getLast? hx))

theorem occurs_of_clear {p w cs : List α} (h : Clear p w) (hin : p <:+: w ++ cs) : p <:+: cs := by
  induction w with
  | nil => exact hin
  | cons x w ih =>
    rcases List.infix_cons_iff.mp hin with hp | hin
    · have hx := h (x :: w) List.suffix_rfl (by simp)
      exact ((List.prefix_or_prefix_of_prefix hp (List.prefix_append (x :: w) cs)).elim hx.1 hx.2).elim
    · exact ih h.tail hin

/-! ## Named patterns -/

variable {ι : Type} {pattern : ι → List α} {ks : List ι}

/-- The rules of named patterns. -/
def rulesOf (pattern : ι → List α) (ks : List ι) (value : ι → List α) : Rules α :=
  ks.map fun k => (pattern k, value k)

theorem rulesOf_ne_nil (hne : ∀ k ∈ ks, pattern k ≠ []) (value : ι → List α) :
    ∀ r ∈ rulesOf pattern ks value, r.1 ≠ [] := by
  intro r hr
  obtain ⟨k, hk, rfl⟩ := List.mem_map.mp hr
  exact hne k hk

/-! ## One reading -/

variable [DecidableEq α]

/-- The first rule whose pattern the text begins with. -/
def ruleAt (rs : Rules α) (cs : List α) : Option (List α × List α) := rs.find? fun r => r.1.isPrefixOf cs

/-- `n` characters are still to be skipped. -/
def substGo (rs : Rules α) : Nat → List α → List α
  | _, [] => []
  | n + 1, _ :: cs => substGo rs n cs
  | 0, c :: cs =>
    match ruleAt rs (c :: cs) with
    | some r => r.2 ++ substGo rs (r.1.length - 1) cs
    | none => c :: substGo rs 0 cs

def substAll (rs : Rules α) (cs : List α) : List α := substGo rs 0 cs

/-- One round for each pattern. -/
def replaceEach (rs : Rules α) (cs : List α) : List α := rs.foldl (fun t r => replaceAll r.1 r.2 t) cs

@[simp] theorem substAll_nil (rs : Rules α) : substAll rs [] = [] := rfl

theorem substGo_drop (rs : Rules α) (n : Nat) (cs : List α) : substGo rs n cs = substAll rs (cs.drop n) := by
  induction cs generalizing n with
  | nil => cases n <;> simp [substGo]
  | cons c cs ih =>
    cases n with
    | zero => rfl
    | succ n => rw [substGo, ih, List.drop_succ_cons]

theorem substAll_cons_of_none {rs : Rules α} {c : α} {cs : List α} (h : ruleAt rs (c :: cs) = none) :
    substAll rs (c :: cs) = c :: substAll rs cs := by
  rw [substAll, substGo, h]
  rfl

theorem ruleAt_some {rs : Rules α} {r : List α × List α} {cs : List α} (h : ruleAt rs cs = some r) :
    r ∈ rs ∧ r.1 <+: cs := by
  unfold ruleAt at h
  have hp := List.find?_some h
  exact ⟨List.mem_of_find?_eq_some h, List.isPrefixOf_iff_prefix.mp hp⟩

theorem ruleAt_none {rs : Rules α} {cs : List α} : ruleAt rs cs = none ↔ ∀ r ∈ rs, ¬ r.1 <+: cs := by
  simp [ruleAt, List.find?_eq_none]

theorem substAll_match {rs : Rules α} {r : List α × List α} (hne : r.1 ≠ []) (rest : List α)
    (h : ruleAt rs (r.1 ++ rest) = some r) : substAll rs (r.1 ++ rest) = r.2 ++ substAll rs rest := by
  obtain ⟨p, v⟩ := r
  cases p with
  | nil => exact absurd rfl hne
  | cons c p =>
    rw [List.cons_append] at h ⊢
    rw [substAll, substGo, h]
    simp only [substGo_drop, List.length_cons, Nat.add_sub_cancel, List.drop_left]

/-- The reading, rule by rule: a pattern is there, or the next character is copied. -/
theorem substAll_induction {rs : Rules α} (hne : ∀ r ∈ rs, r.1 ≠ []) {P : List α → Prop} (nil : P [])
    (rule : ∀ r rest, r ∈ rs → ruleAt rs (r.1 ++ rest) = some r → P rest → P (r.1 ++ rest))
    (copy : ∀ c cs, ruleAt rs (c :: cs) = none → P cs → P (c :: cs)) (cs : List α) : P cs := by
  induction hn : cs.length using Nat.strongRecOn generalizing cs with
  | ind n ih =>
    cases cs with
    | nil => exact nil
    | cons c cs =>
      cases h : ruleAt rs (c :: cs) with
      | none => exact copy c cs h (ih _ (by simp at hn; omega) cs rfl)
      | some r =>
        obtain ⟨hr, rest, hrest⟩ := ruleAt_some h
        have hlt : rest.length < n := by
          have hlen := congrArg List.length hrest
          have := List.length_pos_of_ne_nil (hne r hr)
          simp only [List.length_append, List.length_cons] at *
          omega
        rw [← hrest] at h ⊢
        exact rule r rest hr h (ih _ hlt rest rfl)

/-! ## Rounds -/

theorem replaceAll_of_absent {p v cs : List α} (h : ¬ p <:+: cs) : replaceAll p v cs = cs := by
  induction cs with
  | nil => rfl
  | cons c cs ih =>
    rw [replaceAll_cons_of_mismatch fun hp => h hp.isInfix, ih fun hin => h (List.infix_cons hin)]

/-- Nothing is found in a text that the pattern does not begin in. -/
theorem replaceAll_append_clear {p w : List α} (h : Clear p w) (v cs : List α) :
    replaceAll p v (w ++ cs) = w ++ replaceAll p v cs := by
  induction w with
  | nil => rfl
  | cons x w ih =>
    have hx := h (x :: w) List.suffix_rfl (by simp)
    rw [List.cons_append, replaceAll_cons_of_mismatch, ih h.tail]
    · rfl
    · intro hp
      rw [← List.cons_append] at hp
      exact (List.prefix_or_prefix_of_prefix hp (List.prefix_append _ _)).elim hx.1 hx.2

theorem substAll_append_clear {rs : Rules α} {w : List α} (h : ∀ r ∈ rs, Clear r.1 w) (cs : List α) :
    substAll rs (w ++ cs) = w ++ substAll rs cs := by
  induction w with
  | nil => rfl
  | cons x w ih =>
    rw [List.cons_append, substAll_cons_of_none, ih fun r hr => (h r hr).tail]
    · rfl
    · refine ruleAt_none.mpr fun r hr hp => ?_
      have hx := h r hr (x :: w) List.suffix_rfl (by simp)
      rw [← List.cons_append] at hp
      exact (List.prefix_or_prefix_of_prefix hp (List.prefix_append _ _)).elim hx.1 hx.2

/-- The end of a pattern that a reading shows was there before it. -/
theorem prefix_of_prefix_substAll {rs : Rules α} (hne : ∀ r ∈ rs, r.1 ≠ []) {p q : List α}
    (hv : ∀ r ∈ rs, Clear r.2 p) (hq : q <:+ p) (cs : List α) (h : q <+: substAll rs cs) : q <+: cs := by
  induction cs using substAll_induction hne generalizing q with
  | nil => exact h
  | rule r rest hr hat ih =>
    cases q with
    | nil => exact List.nil_prefix
    | cons d q =>
      rw [substAll_match (hne r hr) rest hat] at h
      have hclear := hv r hr (d :: q) hq (by simp)
      exact absurd (List.prefix_or_prefix_of_prefix h (List.prefix_append _ _))
        (not_or.mpr ⟨hclear.2, hclear.1⟩)
  | copy c cs hat ih =>
    cases q with
    | nil => exact List.nil_prefix
    | cons d q =>
      rw [substAll_cons_of_none hat, List.cons_prefix_cons] at h
      exact List.cons_prefix_cons.mpr ⟨h.1, ih ((List.suffix_cons d q).trans hq) h.2⟩

theorem ruleAt_snoc_of_some {rs : Rules α} {r : List α × List α} {cs : List α} (h : ruleAt rs cs = some r)
    (s : List α × List α) : ruleAt (rs ++ [s]) cs = some r := by
  rw [ruleAt, List.find?_append]
  rw [ruleAt] at h
  rw [h]
  rfl

theorem ruleAt_snoc_of_none {rs : Rules α} {cs : List α} (h : ruleAt rs cs = none) (s : List α × List α) :
    ruleAt (rs ++ [s]) cs = if s.1.isPrefixOf cs then some s else none := by
  rw [ruleAt, List.find?_append]
  rw [ruleAt] at h
  rw [h, Option.none_or, List.find?_singleton]

/-- One more round: its pattern is found where the text had it. -/
theorem replaceAll_substAll {rs : Rules α} {p : List α} (v : List α) (hne : ∀ r ∈ rs, r.1 ≠ []) (hp : p ≠ [])
    (h : ∀ r ∈ rs, Foreign p r.1 ∧ Foreign p r.2) (cs : List α) :
    replaceAll p v (substAll rs cs) = substAll (rs ++ [(p, v)]) cs := by
  have hne' : ∀ r ∈ rs ++ [(p, v)], r.1 ≠ [] := by
    intro r hr
    rcases List.mem_append.mp hr with hr | hr
    · exact hne r hr
    · rw [List.mem_singleton.mp hr]
      exact hp
  induction cs using substAll_induction hne' with
  | nil => rfl
  | rule r rest hr hat ih =>
    rw [substAll_match (hne' r hr) rest hat]
    cases h0 : ruleAt rs (r.1 ++ rest) with
    | some r' =>
      obtain rfl : r' = r := Option.some.inj ((ruleAt_snoc_of_some h0 _).symm.trans hat)
      have hmem := (ruleAt_some h0).1
      rw [substAll_match (hne r' hmem) rest h0, replaceAll_append_clear (h r' hmem).2.1, ih]
    | none =>
      rw [ruleAt_snoc_of_none h0] at hat
      split at hat
      · obtain rfl : (p, v) = r := Option.some.inj hat
        rw [substAll_append_clear (fun r hr => (h r hr).1.2), replaceAll_append_match hp, ih]
      · cases hat
  | copy c cs hat ih =>
    have hnone := ruleAt_none.mp hat
    have h0 : ruleAt rs (c :: cs) = none := ruleAt_none.mpr fun r hr => hnone r (List.mem_append_left _ hr)
    have hpc : ¬ p <+: c :: cs := hnone (p, v) (by simp)
    rw [substAll_cons_of_none hat, ← ih, substAll_cons_of_none h0, replaceAll_cons_of_mismatch]
    intro hpre
    rw [← substAll_cons_of_none h0] at hpre
    exact hpc (prefix_of_prefix_substAll hne (fun r hr => (h r hr).2.2) List.suffix_rfl _ hpre)

/-- **The rounds are one reading**, when no pattern can meet a pattern or a value before it. -/
theorem replaceEach_eq_substAll {rs : Rules α} (hne : ∀ r ∈ rs, r.1 ≠ []) (h : Separate rs) (cs : List α) :
    replaceEach rs cs = substAll rs cs := by
  induction rs using List.reverseRecOn with
  | nil =>
    show cs = substAll [] cs
    induction cs with
    | nil => rfl
    | cons c cs ih => rw [substAll_cons_of_none rfl, ← ih]
  | append_singleton rs r ih =>
    obtain ⟨hrs, -, hr⟩ := List.pairwise_append.mp h
    have hne0 : ∀ r ∈ rs, r.1 ≠ [] := fun r hr => hne r (List.mem_append_left _ hr)
    rw [replaceEach, List.foldl_append]
    show replaceAll r.1 r.2 (replaceEach rs cs) = _
    rw [ih hne0 hrs]
    exact replaceAll_substAll r.2 hne0 (hne r (by simp)) (fun s hs => hr s hs r (List.mem_singleton_self r)) cs

/-! ## What the values do -/

theorem ruleAt_rulesOf (value : ι → List α) (cs : List α) : ruleAt (rulesOf pattern ks value) cs =
    (ks.find? fun k => (pattern k).isPrefixOf cs).map fun k => (pattern k, value k) := by
  rw [ruleAt, rulesOf, List.find?_map]
  rfl

/-- A rule that applies is that of a name, under any values. -/
theorem exists_name {value : ι → List α} {r : List α × List α} {cs : List α}
    (h : ruleAt (rulesOf pattern ks value) cs = some r) : ∃ k ∈ ks, r = (pattern k, value k) ∧ pattern k <+: cs ∧
      ∀ value', ruleAt (rulesOf pattern ks value') cs = some (pattern k, value' k) := by
  rw [ruleAt_rulesOf, Option.map_eq_some_iff] at h
  obtain ⟨k, hk, rfl⟩ := h
  refine ⟨k, List.mem_of_find?_eq_some hk, rfl, ?_, fun value' => ?_⟩
  · have hp := List.find?_some hk
    exact List.isPrefixOf_iff_prefix.mp hp
  · rw [ruleAt_rulesOf, hk]
    rfl

theorem ruleAt_rulesOf_none {value : ι → List α} {cs : List α} (h : ruleAt (rulesOf pattern ks value) cs = none)
    (value' : ι → List α) : ruleAt (rulesOf pattern ks value') cs = none := by
  rw [ruleAt_rulesOf, Option.map_eq_none_iff] at h ⊢
  exact h

/-- Values of patterns that do not occur do not matter. -/
theorem substAll_congr (hne : ∀ k ∈ ks, pattern k ≠ []) {f g : ι → List α} (cs : List α)
    (h : ∀ k ∈ ks, pattern k <:+: cs → f k = g k) :
    substAll (rulesOf pattern ks f) cs = substAll (rulesOf pattern ks g) cs := by
  induction cs using substAll_induction (rulesOf_ne_nil hne f) with
  | nil => rfl
  | rule r rest hr hat ih =>
    obtain ⟨k, hk, rfl, hpre, hat'⟩ := exists_name hat
    rw [substAll_match (hne k hk) rest hat, substAll_match (r := (pattern k, g k)) (hne k hk) rest (hat' g),
      ih fun j hj hin => h j hj (hin.trans (List.suffix_append _ _).isInfix)]
    exact congrArg (· ++ _) (h k hk hpre.isInfix)
  | copy c cs hat ih =>
    rw [substAll_cons_of_none hat, substAll_cons_of_none (ruleAt_rulesOf_none hat g),
      ih fun j hj hin => h j hj (List.infix_cons hin)]

/-- Two readings of a text that has the pattern: one result, one value. -/
theorem substAll_inj (hne : ∀ k ∈ ks, pattern k ≠ []) {k : ι} (hk : k ∈ ks)
    (hclear : ∀ j ∈ ks, j ≠ k → Clear (pattern k) (pattern j)) {f g : ι → List α} (hl : (f k).length = (g k).length)
    {cs : List α} (hfg : ∀ j ∈ ks, j ≠ k → pattern j <:+: cs → f j = g j) (hin : pattern k <:+: cs)
    (h : substAll (rulesOf pattern ks f) cs = substAll (rulesOf pattern ks g) cs) : f k = g k := by
  induction cs using substAll_induction (rulesOf_ne_nil hne f) with
  | nil => exact absurd (List.infix_nil.mp hin) (hne k hk)
  | rule r rest hr hat ih =>
    obtain ⟨j, hj, rfl, hpre, hat'⟩ := exists_name hat
    rw [substAll_match (hne j hj) rest hat, substAll_match (r := (pattern j, g j)) (hne j hj) rest (hat' g)] at h
    by_cases he : j = k
    · subst he
      exact (List.append_inj h hl).1
    · refine ih (fun i hi hik hin => hfg i hi hik (hin.trans (List.suffix_append _ _).isInfix))
        (occurs_of_clear (hclear j hj he) hin) ?_
      exact List.append_cancel_left ((congrArg (· ++ _) (hfg j hj he hpre.isInfix)).symm.trans h)
  | copy c cs hat ih =>
    rw [substAll_cons_of_none hat, substAll_cons_of_none (ruleAt_rulesOf_none hat g)] at h
    refine ih (fun i hi hik hin => hfg i hi hik (List.infix_cons hin)) ?_ (List.cons.inj h).2
    rcases List.infix_cons_iff.mp hin with hp | hin
    · exact absurd hp (ruleAt_none.mp hat (pattern k, f k) (List.mem_map_of_mem hk))
    · exact hin

end MinMcp.Core.Text
