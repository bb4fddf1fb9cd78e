import MinMcp.L4App.SpecBody
import MinMcp.Core.Json.Leaves
import MinMcp.Core.Text.Segments

/-!
# The fields of a form-encoded body

`flatten_form` (src/exec.rs) writes each leaf of a body as one pair whose key spells the way to it,
every name after the first in brackets. The way is read back from the key as long as no name holds
a bracket; the body from the ways as long as no key looks like an index and nothing in it is left out.

* `flattenForm_obj`: the pairs are the leaves of the body, each under its key.
* `fieldKey_inj`: the key determines the way.
* `flattenForm_faithful`: the pairs determine the body, and no key is there twice.
-/
namespace MinMcp.L4.OpenApi

open MinMcp.Core MinMcp.Core.Json

/-! ## Keys -/

def keyAt (key : String) : List String → String
  | [] => key
  | name :: names => keyAt (key ++ "[" ++ name ++ "]") names

def fieldKey : List String → String
  | [] => ""
  | name :: names => keyAt name names

def brackets (names : List String) : List Char := names.flatMap fun name => '[' :: (name.toList ++ [']'])

theorem toList_keyAt (key : String) (names : List String) :
    (keyAt key names).toList = key.toList ++ brackets names := by
  induction names generalizing key with
  | nil => simp [keyAt, brackets]
  | cons name names ih => simp [keyAt, ih, brackets]

/-- A name that is read back from brackets. -/
def Bracketless (name : String) : Prop := '[' ∉ name.toList ∧ ']' ∉ name.toList

instance (name : String) : Decidable (Bracketless name) := inferInstanceAs (Decidable (_ ∧ _))

theorem brackets_inj {names names' : List String} (h : ∀ n ∈ names, Bracketless n)
    (h' : ∀ n ∈ names', Bracketless n) (he : brackets names = brackets names') : names = names' := by
  induction names generalizing names' with
  | nil =>
    cases names' with
    | nil => rfl
    | cons name' names' => cases he
  | cons name names ih =>
    cases names' with
    | nil => cases he
    | cons name' names' =>
      simp only [brackets, List.flatMap_cons, List.cons_append, List.cons.injEq, true_and,
        List.append_assoc, List.nil_append] at he
      obtain ⟨hname, he⟩ := Text.cut_inj (h name (by simp)).2 (h' name' (by simp)).2 he
      rw [String.toList_inj.mp hname, ih (fun n hn => h n (by simp [hn])) (fun n hn => h' n (by simp [hn])) he]

/-- The first name stands in front of the first bracket. -/
theorem append_brackets_inj {name name' : String} {names names' : List String}
    (h : ∀ n ∈ name :: names, Bracketless n) (h' : ∀ n ∈ name' :: names', Bracketless n)
    (he : name.toList ++ brackets names = name'.toList ++ brackets names') :
    name :: names = name' :: names' := by
  obtain ⟨hname, hnames⟩ := List.forall_mem_cons.mp h
  obtain ⟨hname', hnames'⟩ := List.forall_mem_cons.mp h'
  cases names with
  | nil =>
    cases names' with
    | nil =>
      rw [brackets, List.flatMap_nil, List.append_nil, List.append_nil] at he
      rw [String.toList_inj.mp he]
    | cons n' ns' =>
      have : '[' ∈ name.toList ++ brackets [] := by rw [he]; simp [brackets]
      exact absurd (by simpa [brackets] using this) hname.1
  | cons n ns =>
    cases names' with
    | nil =>
      have : '[' ∈ name'.toList ++ brackets [] := by rw [← he]; simp [brackets]
      exact absurd (by simpa [brackets] using this) hname'.1
    | cons n' ns' =>
      obtain ⟨hfirst, hrest⟩ := Text.cut_inj hname.1 hname'.1 he
      have hb : brackets (n :: ns) = brackets (n' :: ns') := congrArg ('[' :: ·) hrest
      rw [String.toList_inj.mp hfirst, brackets_inj hnames hnames' hb]

theorem fieldKey_inj {names names' : List String} (hne : names ≠ []) (hne' : names' ≠ [])
    (h : ∀ n ∈ names, Bracketless n) (h' : ∀ n ∈ names', Bracketless n)
    (he : fieldKey names = fieldKey names') : names = names' := by
  obtain ⟨name, names, rfl⟩ := List.exists_cons_of_ne_nil hne
  obtain ⟨name', names', rfl⟩ := List.exists_cons_of_ne_nil hne'
  have he := congrArg String.toList he
  rw [fieldKey, fieldKey, toList_keyAt, toList_keyAt] at he
  exact append_brackets_inj h h' he

/-! ## The pairs of a body -/

theorem ne_empty_of_mem {s : String} {c : Char} (h : c ∈ s.toList) : s ≠ "" := by
  rintro rfl
  cases h

/-- Below a key, which is never empty there. -/
theorem flattenForm_eq {key : String} (hkey : key ≠ "") (v : Json) :
    flattenForm key v = (leaves v).map fun l => (keyAt key l.1, l.2) := by
  induction v using Json.ind generalizing key with
  | obj es ih =>
    rw [flattenForm, leaves]
    induction es with
    | nil => rfl
    | cons e es rest =>
      have hstep := @ih e (by simp) (key ++ "[" ++ e.1 ++ "]") (ne_empty_of_mem (c := ']') (by simp))
      rw [flattenEntries, if_neg hkey, hstep, rest fun e he => ih e (by simp [he]), leavesEntries,
        List.map_append, List.map_map]
      rfl
  | arr xs ih =>
    rw [flattenForm, leaves]
    generalize 0 = i
    induction xs generalizing i with
    | nil => rfl
    | cons x xs rest =>
      have hstep := @ih x (by simp) (key ++ "[" ++ toString i ++ "]") (ne_empty_of_mem (c := ']') (by simp))
      rw [flattenElems, hstep, rest fun x hx => ih x (by simp [hx]), leavesElems, List.map_append,
        List.map_map]
      rfl
  | _ => rfl

theorem flattenForm_obj {es : List (String × Json)} (h : "" ∉ OrderedMap.keys es) :
    flattenForm "" (.obj es) = (leaves (.obj es)).map fun l => (fieldKey l.1, l.2) := by
  rw [flattenForm, leaves]
  induction es with
  | nil => rfl
  | cons e es ih =>
    have hk : e.1 ≠ "" := fun hk => h (by simp [OrderedMap.keys, hk])
    have hrest := ih fun hk => h (List.mem_cons_of_mem _ hk)
    rw [flattenEntries, if_pos rfl, flattenForm_eq hk, hrest, leavesEntries, List.map_append, List.map_map]
    rfl

/-- What a key of a form body must be: not empty, without brackets, and not the decimal text of
a number. -/
def FieldName (k : String) : Prop := k ≠ "" ∧ Bracketless k ∧ ∀ n : Nat, k ≠ toString n

/-- A body with unique keys, field names all of them, that holds neither null nor an empty container. -/
structure FormBody (v : Json) : Prop where
  wf : v.WF
  names : ∀ ps es, v.locate ps = some (.obj es) → ∀ k ∈ OrderedMap.keys es, FieldName k
  filled : v.Filled

theorem FormBody.legible {v : Json} (h : FormBody v) : v.Legible :=
  ⟨h.wf, fun ps es hps k hk => (h.names ps es hps k hk).2.2, h.filled⟩

theorem isDigit_of_mem_toString {n : Nat} {c : Char} (hc : c ∈ (toString n).toList) : c.isDigit = true := by
  rw [show toString n = Nat.repr n from rfl, Nat.toList_repr] at hc
  exact Nat.isDigit_of_mem_toDigits (by omega) (by omega) hc

theorem bracketless_toString (n : Nat) : Bracketless (toString n) :=
  ⟨fun h => absurd (isDigit_of_mem_toString h) (by decide), fun h => absurd (isDigit_of_mem_toString h) (by decide)⟩

theorem FormBody.bracketless {v : Json} (h : FormBody v) {l : List String × String} (hl : l ∈ leaves v) :
    ∀ n ∈ l.1, Bracketless n := by
  intro n hn
  obtain ⟨ps, es, hps, hk⟩ | ⟨i, rfl⟩ := name_of_mem_leaves h.wf hl hn
  · exact (h.names ps es hps n hk).2.1
  · exact bracketless_toString i

theorem FormBody.flattenForm {es : List (String × Json)} (h : FormBody (.obj es)) :
    flattenForm "" (.obj es) = (leaves (.obj es)).map fun l => (fieldKey l.1, l.2) :=
  flattenForm_obj fun hk => (h.names [] es rfl "" hk).1 rfl

/-- The leaves of two bodies with the same key. -/
theorem FormBody.fieldKey_inj {es fs : List (String × Json)} (hes : FormBody (.obj es))
    (hfs : FormBody (.obj fs)) {l m : List String × String} (hl : l ∈ leaves (.obj es))
    (hm : m ∈ leaves (.obj fs)) (h : fieldKey l.1 = fieldKey m.1) : l.1 = m.1 :=
  OpenApi.fieldKey_inj (ne_nil_of_mem_leaves (.inl ⟨es, rfl⟩) hl) (ne_nil_of_mem_leaves (.inl ⟨fs, rfl⟩) hm)
    (hes.bracketless hl) (hfs.bracketless hm) h

theorem map_inj_on {α β : Type} {f : α → β} {xs ys : List α} (hf : ∀ x ∈ xs, ∀ y ∈ ys, f x = f y → x = y)
    (h : xs.map f = ys.map f) : xs = ys := by
  induction xs generalizing ys with
  | nil =>
    cases ys with
    | nil => rfl
    | cons y ys => cases h
  | cons x xs ih =>
    cases ys with
    | nil => cases h
    | cons y ys =>
      obtain ⟨hxy, h⟩ := List.cons.inj h
      rw [hf x (by simp) y (by simp) hxy, ih (fun x hx y hy => hf x (by simp [hx]) y (by simp [hy])) h]

/-! ## Bodies by their parts -/

theorem formBody_of_children {v : Json} (hwf : v.WF)
    (hk : ∀ es, v = .obj es → ∀ k ∈ OrderedMap.keys es, FieldName k)
    (hc : ∀ p c, v.child p = some c → c.Present ∧ FormBody c) : FormBody v where
  wf := hwf
  names ps es h := by
    cases ps with
    | nil => exact hk es (Option.some.inj h)
    | cons p ps =>
      obtain ⟨c, hpc, h⟩ := locate_cons_eq_some.mp h
      exact (hc p c hpc).2.names ps es h
  filled p ps x h := by
    obtain ⟨c, hpc, h⟩ := locate_cons_eq_some.mp h
    cases ps with
    | nil => exact Option.some.inj h ▸ (hc p c hpc).1
    | cons q qs => exact (hc p c hpc).2.filled q qs x h

theorem formBody_scalar {v : Json} (hwf : v.WF) (ho : ∀ es, v ≠ .obj es) (ha : ∀ xs, v ≠ .arr xs) :
    FormBody v :=
  formBody_of_children hwf (fun es e => absurd e (ho es)) fun p c hc => by
    rw [child_of_scalar ho ha] at hc
    cases hc

theorem formBody_arr {xs : List Json} (h : ∀ x ∈ xs, x.Present ∧ FormBody x) : FormBody (.arr xs) :=
  formBody_of_children (wf_arr.mpr fun x hx => (h x hx).2.wf) (fun _ e => nomatch e) fun _ c hc =>
    h c (mem_of_child hc)

theorem formBody_obj {es : List (String × Json)} (hn : (OrderedMap.keys es).Nodup)
    (hk : ∀ k ∈ OrderedMap.keys es, FieldName k) (h : ∀ e ∈ es, e.2.Present ∧ FormBody e.2) :
    FormBody (.obj es) := by
  refine formBody_of_children (wf_obj.mpr ⟨hn, fun e he => (h e he).2.wf⟩) (fun fs e => ?_) fun p c hc => ?_
  · obtain rfl := Json.obj.inj e
    exact hk
  · cases p with
    | key k => exact h (k, c) (OrderedMap.mem_of_lookup hc)
    | index i => cases hc

theorem fieldName_of_letter {k : String} {c : Char} (hb : Bracketless k) (hc : c ∈ k.toList)
    (hd : c.isDigit = false) : FieldName k := by
  refine ⟨ne_empty_of_mem hc, hb, ?_⟩
  rintro n rfl
  simp [isDigit_of_mem_toString hc] at hd

/-! ## The pairs determine the body -/

/-- Two bodies written as the same pairs are the same up to the text of their scalars, and each pair of a
body has a key of its own. -/
theorem flattenForm_faithful (es fs : List (String × Json)) (hes : FormBody (.obj es))
    (hfs : FormBody (.obj fs)) :
    (OpenApi.flattenForm "" (.obj es) = OpenApi.flattenForm "" (.obj fs) →
      asText (.obj es) = asText (.obj fs)) ∧
    ((OpenApi.flattenForm "" (.obj es)).map Prod.fst).Nodup := by
  rw [hes.flattenForm, hfs.flattenForm]
  constructor
  · intro h
    have hleaves : leaves (.obj es) = leaves (.obj fs) := by
      refine map_inj_on (fun l hl m hm hlm => ?_) h
      obtain ⟨hkey, htext⟩ := Prod.mk.inj hlm
      exact Prod.ext (hes.fieldKey_inj hfs hl hm hkey) htext
    exact asText_obj_eq hes.legible hfs.legible (fun e he w hw pw h =>
      asText_eq_of_leaves (hes.legible.entry he).2 hw (hes.legible.entry he).1 pw h) hleaves
  · have hkeys : ((leaves (.obj es)).map fun l => (fieldKey l.1, l.2)).map Prod.fst =
        ((leaves (.obj es)).map Prod.fst).map fieldKey := by
      rw [List.map_map, List.map_map]; rfl
    rw [hkeys]
    refine List.Nodup.map_on (fun p hp q hq hpq => ?_) (leaves_nodup hes.wf)
    obtain ⟨l, hl, rfl⟩ := List.mem_map.mp hp
    obtain ⟨m, hm, rfl⟩ := List.mem_map.mp hq
    exact hes.fieldKey_inj hes hl hm hpq

/-- Line items of an order, by price. -/
def lineItems (quantity : Json) : List (String × Json) :=
  [("line_items", .arr [.obj [("price", .str "p_1"), ("quantity", quantity)]])]

theorem formBody_lineItems {quantity : Json} (hp : quantity.Present) (hq : FormBody quantity) :
    FormBody (.obj (lineItems quantity)) := by
  have hname : ∀ k ∈ ["line_items", "price", "quantity"], FieldName k := by
    intro k hk
    simp only [List.mem_cons, List.not_mem_nil, or_false] at hk
    obtain rfl | rfl | rfl := hk
    · exact fieldName_of_letter (c := 'l') (by decide) (by decide) (by decide)
    · exact fieldName_of_letter (c := 'p') (by decide) (by decide) (by decide)
    · exact fieldName_of_letter (c := 'q') (by decide) (by decide) (by decide)
  have hprice : FormBody (.str "p_1") := formBody_scalar trivial (by simp) (by simp)
  have hitem : FormBody (.obj [("price", .str "p_1"), ("quantity", quantity)]) := by
    refine formBody_obj ?_ (fun k hk => hname k (List.mem_cons_of_mem _ hk)) ?_
    · show ["price", "quantity"].Nodup
      decide
    · simp only [List.forall_mem_cons, List.not_mem_nil, false_implies, implies_true, and_true]
      exact ⟨⟨by simp [Present], hprice⟩, hp, hq⟩
  refine formBody_obj ?_ (fun k hk => hname k (by simp_all [OrderedMap.keys, lineItems])) ?_
  · show ["line_items"].Nodup
    decide
  · simp only [lineItems, List.forall_mem_cons, List.not_mem_nil, false_implies, implies_true, and_true]
    refine ⟨by simp [Present], formBody_arr ?_⟩
    simpa using ⟨by simp [Present], hitem⟩

/-- A number and the same number as a string are written alike. -/
theorem flattenForm_faithful_items :
    asText (.obj (lineItems (.num (Num.ofNat 1)))) = asText (.obj (lineItems (.str "1"))) ∧
      flattenForm "" (.obj (lineItems (.str "1"))) =
        [("line_items[0][price]", "p_1"), ("line_items[0][quantity]", "1")] ∧
      ((flattenForm "" (.obj (lineItems (.num (Num.ofNat 1))))).map Prod.fst).Nodup := by
  have hnum : FormBody (.obj (lineItems (.num (Num.ofNat 1)))) :=
    formBody_lineItems (by simp [Present]) (formBody_scalar trivial (by simp) (by simp))
  have hstr : FormBody (.obj (lineItems (.str "1"))) :=
    formBody_lineItems (by simp [Present]) (formBody_scalar trivial (by simp) (by simp))
  have h := flattenForm_faithful _ _ hnum hstr
  exact ⟨h.1 (by decide), by decide, h.2⟩

end MinMcp.L4.OpenApi
