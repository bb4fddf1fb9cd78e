import MinMcp.Core.Json.Places
import MinMcp.Core.OrderedMap
import Mathlib.Data.List.Nodup
import Std.Data.String.ToNat

/-!
# The leaves of a JSON value

A leaf is the text of a scalar with the names on the way to it: the keys of objects and the
indexes of arrays. A value is known by its leaves, up to the rendering of scalars as text, when
nothing in it is without a leaf and no key can be taken for an index.

* `tagged_injective`: a list of named blocks is known from what the blocks hold, each with its name.
* `asText_eq_of_leaves`: two values with the same leaves have the same text (`Filled`, `Named`).
* `leaves_nodup`: no two leaves have the same names on the way.
-/
namespace MinMcp.Core.Json

/-! ## Blocks under a name -/

section Blocks

variable {κ τ : Type} [DecidableEq κ]

def tagged (bs : List (κ × List (List κ × τ))) : List (List κ × τ) :=
  bs.flatMap fun b => b.2.map fun l => (b.1 :: l.1, l.2)

/-- Whether a leaf stands in the block of that name. -/
def startsWith (k : κ) (l : List κ × τ) : Bool := l.1.head? = some k

theorem filter_startsWith {k : κ} {b : List (List κ × τ)} {bs : List (κ × List (List κ × τ))}
    (h : k ∉ OrderedMap.keys bs) :
    (tagged ((k, b) :: bs)).filter (startsWith k) = b.map fun l => (k :: l.1, l.2) := by
  rw [tagged, List.flatMap_cons, List.filter_append, List.filter_eq_self.mpr, List.filter_eq_nil_iff.mpr,
    List.append_nil]
  · intro l hl
    obtain ⟨c, hc, hl⟩ := List.mem_flatMap.mp hl
    obtain ⟨l, -, rfl⟩ := List.mem_map.mp hl
    have : c.1 ≠ k := fun e => h (List.mem_map.mpr ⟨c, hc, e⟩)
    simpa [startsWith] using this
  · intro l hl
    obtain ⟨l, -, rfl⟩ := List.mem_map.mp hl
    simp [startsWith]

theorem tagged_injective {bs cs : List (κ × List (List κ × τ))} (hb : (OrderedMap.keys bs).Nodup)
    (hc : (OrderedMap.keys cs).Nodup) (hbs : ∀ b ∈ bs, b.2 ≠ []) (hcs : ∀ c ∈ cs, c.2 ≠ [])
    (h : tagged bs = tagged cs) : bs = cs := by
  induction bs generalizing cs with
  | nil =>
    cases cs with
    | nil => rfl
    | cons c cs =>
      have := hcs c (by simp)
      simp [tagged, this] at h
  | cons b bs ih =>
    cases cs with
    | nil =>
      have := hbs b (by simp)
      simp [tagged, this] at h
    | cons c cs =>
      obtain ⟨k, b⟩ := b
      obtain ⟨k', c⟩ := c
      obtain ⟨hk, hbn⟩ := List.nodup_cons.mp hb
      obtain ⟨hk', hcn⟩ := List.nodup_cons.mp hc
      -- the name of the first leaf is the name of the first block
      have hkk : k = k' := by
        obtain ⟨l, b', rfl⟩ := List.exists_cons_of_ne_nil (hbs (k, b) (by simp))
        obtain ⟨m, c', rfl⟩ := List.exists_cons_of_ne_nil (hcs (k', c) (by simp))
        simp only [tagged, List.flatMap_cons, List.map_cons, List.cons_append, List.cons.injEq,
          Prod.mk.injEq] at h
        exact h.1.1.1
      subst hkk
      have hfirst : b.map (fun l => (k :: l.1, l.2)) = c.map fun l => (k :: l.1, l.2) := by
        rw [← filter_startsWith hk, ← filter_startsWith hk', h]
      have hrest : tagged bs = tagged cs := by
        simp only [tagged, List.flatMap_cons] at h ⊢
        rw [hfirst] at h
        exact List.append_cancel_left h
      obtain rfl := ih hbn hcn (fun b hb => hbs b (by simp [hb])) (fun c hc => hcs c (by simp [hc])) hrest
      have hbc : b = c := by
        refine List.map_injective_iff.mpr (fun l m e => ?_) hfirst
        obtain ⟨e1, e2⟩ := Prod.mk.inj e
        exact Prod.ext (List.cons.inj e1).2 e2
      rw [hbc]

omit [DecidableEq κ] in
theorem nodup_tagged {bs : List (κ × List (List κ × τ))} (hb : (OrderedMap.keys bs).Nodup)
    (hbs : ∀ b ∈ bs, (b.2.map Prod.fst).Nodup) : ((tagged bs).map Prod.fst).Nodup := by
  induction bs with
  | nil => exact List.nodup_nil
  | cons b bs ih =>
    obtain ⟨hk, hb⟩ := List.nodup_cons.mp hb
    simp only [tagged, List.flatMap_cons, List.map_append, List.map_map]
    refine List.nodup_append.mpr ⟨?_, ih hb fun c hc => hbs c (by simp [hc]), ?_⟩
    · have hcons : Function.Injective fun p => b.1 :: p := fun p q e => (List.cons.inj e).2
      have := (List.nodup_map_iff hcons).mpr (hbs b (by simp))
      rwa [List.map_map] at this
    · intro p hp q hq e
      obtain ⟨l, -, rfl⟩ := List.mem_map.mp hp
      obtain ⟨m, hm, rfl⟩ := List.mem_map.mp hq
      obtain ⟨c, hc, hm⟩ := List.mem_flatMap.mp hm
      obtain ⟨m, -, rfl⟩ := List.mem_map.mp hm
      exact hk (List.mem_map.mpr ⟨c, hc, (List.cons.inj e).1.symm⟩)

end Blocks

/-! ## Leaves -/

mutual
def leaves : Json → List (List String × String)
  | .obj es => leavesEntries es
  | .arr xs => leavesElems 0 xs
  | .bool b => [([], if b then "true" else "false")]
  | .null => []
  | .str s => [([], s)]
  | .num n => [([], n.text)]
termination_by structural v => v
def leavesEntries : List (String × Json) → List (List String × String)
  | [] => []
  | (k, v) :: es => (leaves v).map (fun l => (k :: l.1, l.2)) ++ leavesEntries es
termination_by structural es => es
def leavesElems (i : Nat) : List Json → List (List String × String)
  | [] => []
  | v :: xs => (leaves v).map (fun l => (toString i :: l.1, l.2)) ++ leavesElems (i + 1) xs
termination_by structural xs => xs
end

/-- The elements of an array as entries. -/
def indexed (i : Nat) : List Json → List (String × Json)
  | [] => []
  | v :: xs => (toString i, v) :: indexed (i + 1) xs

def blocks (es : List (String × Json)) : List (String × List (List String × String)) :=
  es.map fun e => (e.1, leaves e.2)

theorem leavesEntries_eq (es : List (String × Json)) : leavesEntries es = tagged (blocks es) := by
  induction es with
  | nil => rfl
  | cons e es ih => rw [leavesEntries, ih]; rfl

theorem leavesElems_eq (i : Nat) (xs : List Json) : leavesElems i xs = tagged (blocks (indexed i xs)) := by
  induction xs generalizing i with
  | nil => rfl
  | cons x xs ih => rw [leavesElems, ih]; rfl

theorem keys_blocks (es : List (String × Json)) : OrderedMap.keys (blocks es) = OrderedMap.keys es := by
  simp [blocks, OrderedMap.keys]

theorem mem_keys_indexed {k : String} {i : Nat} {xs : List Json} (h : k ∈ OrderedMap.keys (indexed i xs)) :
    ∃ j, i ≤ j ∧ k = toString j := by
  induction xs generalizing i with
  | nil => cases h
  | cons x xs ih =>
    obtain rfl | h := List.mem_cons.mp h
    · exact ⟨i, by omega, rfl⟩
    · obtain ⟨j, hj, rfl⟩ := ih h
      exact ⟨j, by omega, rfl⟩

theorem nodup_keys_indexed (i : Nat) (xs : List Json) : (OrderedMap.keys (indexed i xs)).Nodup := by
  induction xs generalizing i with
  | nil => exact List.nodup_nil
  | cons x xs ih =>
    refine List.nodup_cons.mpr ⟨fun h => ?_, ih (i + 1)⟩
    obtain ⟨j, hj, e⟩ := mem_keys_indexed h
    have : i = j := Nat.repr_injective e
    omega

theorem mem_indexed {e : String × Json} {i : Nat} {xs : List Json} (h : e ∈ indexed i xs) : e.2 ∈ xs := by
  induction xs generalizing i with
  | nil => cases h
  | cons x xs ih =>
    obtain rfl | h := List.mem_cons.mp h
    · exact List.mem_cons_self
    · exact List.mem_cons_of_mem x (ih h)

/-- In a value with unique keys. -/
theorem leaves_nodup {v : Json} (h : v.WF) : ((leaves v).map Prod.fst).Nodup := by
  induction v using Json.ind with
  | obj es ih =>
    obtain ⟨hn, hes⟩ := wf_obj.mp h
    rw [leaves, leavesEntries_eq]
    refine nodup_tagged (by rwa [keys_blocks]) fun b hb => ?_
    obtain ⟨e, he, rfl⟩ := List.mem_map.mp hb
    exact ih e he (hes e he)
  | arr xs ih =>
    rw [leaves, leavesElems_eq]
    refine nodup_tagged (by rw [keys_blocks]; exact nodup_keys_indexed 0 xs) fun b hb => ?_
    obtain ⟨e, he, rfl⟩ := List.mem_map.mp hb
    exact ih e.2 (mem_indexed he) (wf_arr.mp h e.2 (mem_indexed he))
  | _ => simp [leaves]

/-! ## A value from its leaves -/

mutual
/-- The value with every scalar as text. -/
def asText : Json → Json
  | .obj es => .obj (asTextEntries es)
  | .arr xs => .arr (asTextElems xs)
  | .bool b => .str (if b then "true" else "false")
  | .null => .null
  | .str s => .str s
  | .num n => .str n.text
termination_by structural v => v
def asTextEntries : List (String × Json) → List (String × Json)
  | [] => []
  | (k, v) :: es => (k, asText v) :: asTextEntries es
termination_by structural es => es
def asTextElems : List Json → List Json
  | [] => []
  | v :: xs => asText v :: asTextElems xs
termination_by structural xs => xs
end

variable {v w c : Json} {p : Place}

/-- No key is the decimal text of a number. -/
def Named (v : Json) : Prop :=
  ∀ ps es, v.locate ps = some (.obj es) → ∀ k ∈ OrderedMap.keys es, ∀ n : Nat, k ≠ toString n

/-- Neither null nor an empty container. -/
def Present (v : Json) : Prop := v ≠ .null ∧ v ≠ .obj [] ∧ v ≠ .arr []

/-- What the value holds is there. -/
def Filled (v : Json) : Prop := ∀ p ps x, v.locate (p :: ps) = some x → x.Present

/-- A value that can be told from its leaves. -/
structure Legible (v : Json) : Prop where
  wf : v.WF
  named : v.Named
  filled : v.Filled

theorem Legible.child (h : v.Legible) (hc : v.child p = some c) : c.Present ∧ c.Legible :=
  ⟨h.filled p [] c (locate_cons hc []), wf_child h.wf hc,
    fun ps es hps => h.named (p :: ps) es ((locate_cons hc ps).trans hps),
    fun q ps x hx => h.filled p (q :: ps) x ((locate_cons hc (q :: ps)).trans hx)⟩

theorem child_of_mem {es : List (String × Json)} {e : String × Json} (hwf : (obj es).WF) (he : e ∈ es) :
    (obj es).child (.key e.1) = some e.2 :=
  OrderedMap.lookup_of_mem (wf_obj.mp hwf).1 he

theorem Legible.entry {es : List (String × Json)} {e : String × Json} (h : (obj es).Legible) (he : e ∈ es) :
    e.2.Present ∧ e.2.Legible :=
  h.child (child_of_mem h.wf he)

theorem Legible.elem {xs : List Json} {x : Json} (h : (arr xs).Legible) (hx : x ∈ xs) :
    x.Present ∧ x.Legible := by
  obtain ⟨i, hi⟩ := List.getElem?_of_mem hx
  exact h.child (p := .index i) hi

theorem leaves_ne_nil (hv : v.Present) (h : v.Legible) : leaves v ≠ [] := by
  induction v using Json.ind with
  | null => exact absurd rfl hv.1
  | obj es ih =>
    cases es with
    | nil => exact absurd rfl hv.2.1
    | cons e es =>
      have hc := h.entry (e := e) (by simp)
      have := ih e (by simp) hc.1 hc.2
      simp [leaves, leavesEntries, this]
  | arr xs ih =>
    cases xs with
    | nil => exact absurd rfl hv.2.2
    | cons x xs =>
      have hc := h.elem (x := x) (by simp)
      have := ih x (by simp) hc.1 hc.2
      simp [leaves, leavesElems, this]
  | _ => simp [leaves]

theorem asTextEntries_eq_of_blocks {es fs : List (String × Json)} (h : blocks es = blocks fs)
    (ih : ∀ e ∈ es, ∀ f ∈ fs, leaves e.2 = leaves f.2 → asText e.2 = asText f.2) :
    asTextEntries es = asTextEntries fs := by
  induction es generalizing fs with
  | nil =>
    cases fs with
    | nil => rfl
    | cons f fs => cases h
  | cons e es rest =>
    cases fs with
    | nil => cases h
    | cons f fs =>
      obtain ⟨k, v⟩ := e
      obtain ⟨k', w⟩ := f
      obtain ⟨hd, tl⟩ := List.cons.inj h
      obtain ⟨rfl, hvw⟩ := Prod.mk.inj hd
      rw [asTextEntries, asTextEntries, ih (k, v) (by simp) (k, w) (by simp) hvw,
        rest tl fun e he f hf => ih e (by simp [he]) f (by simp [hf])]

theorem asTextElems_eq_of_indexed {xs ys : List Json} {i : Nat}
    (h : asTextEntries (indexed i xs) = asTextEntries (indexed i ys)) : asTextElems xs = asTextElems ys := by
  induction xs generalizing i ys with
  | nil =>
    cases ys with
    | nil => rfl
    | cons y ys => cases h
  | cons x xs ih =>
    cases ys with
    | nil => cases h
    | cons y ys =>
      obtain ⟨hd, tl⟩ := List.cons.inj h
      rw [asTextElems, asTextElems, (Prod.mk.inj hd).2, ih tl]

/-- The entries of two containers with the same leaves. -/
theorem blocks_eq {es fs : List (String × Json)} (hes : (OrderedMap.keys es).Nodup)
    (hfs : (OrderedMap.keys fs).Nodup) (pes : ∀ e ∈ es, e.2.Present ∧ e.2.Legible)
    (pfs : ∀ f ∈ fs, f.2.Present ∧ f.2.Legible) (h : tagged (blocks es) = tagged (blocks fs)) :
    blocks es = blocks fs := by
  have hne : ∀ gs : List (String × Json), (∀ g ∈ gs, g.2.Present ∧ g.2.Legible) → ∀ b ∈ blocks gs, b.2 ≠ [] := by
    intro gs hgs b hb
    obtain ⟨g, hg, rfl⟩ := List.mem_map.mp hb
    exact leaves_ne_nil (hgs g hg).1 (hgs g hg).2
  exact tagged_injective (by rwa [keys_blocks]) (by rwa [keys_blocks]) (hne es pes) (hne fs pfs) h

theorem Legible.indexed {xs : List Json} (h : (arr xs).Legible) :
    ∀ e ∈ indexed 0 xs, e.2.Present ∧ e.2.Legible := fun _ he => h.elem (mem_indexed he)

/-- An object and an array have no leaf in common. -/
theorem leaves_obj_ne_arr {es : List (String × Json)} {xs : List Json} (hes : (obj es).Legible)
    (hxs : (arr xs).Legible) (hp : (obj es).Present) : leaves (obj es) ≠ leaves (arr xs) := by
  intro h
  have hne := leaves_ne_nil hp hes
  rw [leaves, leavesEntries_eq, leaves, leavesElems_eq] at h
  have hx : (arr xs).Present := by
    refine ⟨by simp, by simp, fun hx => hne ?_⟩
    obtain rfl := Json.arr.inj hx
    rw [leaves, leavesEntries_eq, h]; rfl
  have hb := blocks_eq (wf_obj.mp hes.wf).1 (nodup_keys_indexed 0 xs) (fun e he => hes.entry he) hxs.indexed h
  cases es with
  | nil => exact hp.2.1 rfl
  | cons e es =>
    have hk : e.1 ∈ OrderedMap.keys (Json.indexed 0 xs) := by
      rw [← keys_blocks, ← hb, keys_blocks]; simp [OrderedMap.keys]
    obtain ⟨n, -, hn⟩ := mem_keys_indexed hk
    exact hes.named [] (e :: es) rfl e.1 (by simp [OrderedMap.keys]) n hn

/-- A scalar has one leaf, with no name. -/
theorem leaves_scalar (ho : ∀ es, v ≠ .obj es) (ha : ∀ xs, v ≠ .arr xs) (hv : v.Present) :
    ∃ s, leaves v = [([], s)] ∧ asText v = .str s := by
  cases v with
  | null => exact absurd rfl hv.1
  | obj es => exact absurd rfl (ho es)
  | arr xs => exact absurd rfl (ha xs)
  | bool b => exact ⟨_, rfl, rfl⟩
  | num n => exact ⟨_, rfl, rfl⟩
  | str s => exact ⟨_, rfl, rfl⟩

theorem ne_nil_of_mem_tagged {bs : List (String × List (List String × String))} {l : List String × String}
    (h : l ∈ tagged bs) : l.1 ≠ [] := by
  obtain ⟨b, -, h⟩ := List.mem_flatMap.mp h
  obtain ⟨m, -, rfl⟩ := List.mem_map.mp h
  simp

/-- Every leaf of an object or an array has a name. -/
theorem ne_nil_of_mem_leaves {l : List String × String} (h : (∃ es, v = .obj es) ∨ ∃ xs, v = .arr xs)
    (hl : l ∈ leaves v) : l.1 ≠ [] := by
  obtain ⟨es, rfl⟩ | ⟨xs, rfl⟩ := h
  · rw [leaves, leavesEntries_eq] at hl
    exact ne_nil_of_mem_tagged hl
  · rw [leaves, leavesElems_eq] at hl
    exact ne_nil_of_mem_tagged hl

/-- Two objects, which may be empty themselves, where the rule holds of what they hold. -/
theorem asText_obj_eq {es fs : List (String × Json)} (hes : (obj es).Legible) (hfs : (obj fs).Legible)
    (ih : ∀ e ∈ es, ∀ w : Json, w.Legible → w.Present → leaves e.2 = leaves w → asText e.2 = asText w)
    (h : leaves (obj es) = leaves (obj fs)) : asText (obj es) = asText (obj fs) := by
  rw [leaves, leavesEntries_eq, leaves, leavesEntries_eq] at h
  have hb := blocks_eq (wf_obj.mp hes.wf).1 (wf_obj.mp hfs.wf).1 (fun e he => hes.entry he)
    (fun f hf => hfs.entry hf) h
  rw [asText, asText, asTextEntries_eq_of_blocks hb fun e he f hf =>
    ih e he f.2 (hfs.entry hf).2 (hfs.entry hf).1]

theorem asText_scalar_eq (ho : ∀ es, v ≠ .obj es) (ha : ∀ xs, v ≠ .arr xs) (pv : v.Present)
    (pw : w.Present) (h : leaves v = leaves w) : asText v = asText w := by
  obtain ⟨s, hs, hv⟩ := leaves_scalar ho ha pv
  have hmem : ([], s) ∈ leaves w := by rw [← h, hs]; exact List.mem_singleton_self _
  have hw : ¬((∃ es, w = .obj es) ∨ ∃ xs, w = .arr xs) := fun hc => ne_nil_of_mem_leaves hc hmem rfl
  obtain ⟨t, ht, hw⟩ := leaves_scalar (fun es e => hw (.inl ⟨es, e⟩)) (fun xs e => hw (.inr ⟨xs, e⟩)) pw
  rw [hs, ht] at h
  rw [hv, hw, (Prod.mk.inj (List.cons.inj h).1).2]

/-- By what the first value is; only values of one kind have the same leaves. -/
theorem asText_eq_of_leaves (hv : v.Legible) (hw : w.Legible) (pv : v.Present) (pw : w.Present)
    (h : leaves v = leaves w) : asText v = asText w := by
  induction v using Json.ind generalizing w with
  | obj es ih =>
    obtain ⟨fs, rfl⟩ | ⟨ys, rfl⟩ | ⟨ho, ha⟩ := container_cases w
    · exact asText_obj_eq hv hw
        (fun e he w hw pw h => ih e he (hv.entry he).2 hw (hv.entry he).1 pw h) h
    · exact absurd h (leaves_obj_ne_arr hv hw pv)
    · exact (asText_scalar_eq ho ha pw pv h.symm).symm
  | arr xs ih =>
    obtain ⟨fs, rfl⟩ | ⟨ys, rfl⟩ | ⟨ho, ha⟩ := container_cases w
    · exact absurd h.symm (leaves_obj_ne_arr hw hv pw)
    · rw [leaves, leavesElems_eq, leaves, leavesElems_eq] at h
      have hb := blocks_eq (nodup_keys_indexed 0 xs) (nodup_keys_indexed 0 ys) hv.indexed hw.indexed h
      have he := asTextEntries_eq_of_blocks hb fun e he f hf =>
        ih e.2 (mem_indexed he) (hv.indexed e he).2 (hw.indexed f hf).2 (hv.indexed e he).1 (hw.indexed f hf).1
      rw [asText, asText, asTextElems_eq_of_indexed he]
    · exact (asText_scalar_eq ho ha pw pv h.symm).symm
  | _ => exact asText_scalar_eq (by simp) (by simp) pv pw h

/-! ## Names -/

/-- A name on the way to a leaf is a key of some object of the value, or an index. -/
theorem name_of_mem_leaves {l : List String × String} {name : String} (hwf : v.WF) (hl : l ∈ leaves v)
    (hn : name ∈ l.1) : (∃ ps es, v.locate ps = some (.obj es) ∧ name ∈ OrderedMap.keys es) ∨
      ∃ i : Nat, name = toString i := by
  induction v using Json.ind generalizing l with
  | obj es ih =>
    rw [leaves, leavesEntries_eq] at hl
    obtain ⟨b, hb, hl⟩ := List.mem_flatMap.mp hl
    obtain ⟨e, he, rfl⟩ := List.mem_map.mp hb
    obtain ⟨m, hm, rfl⟩ := List.mem_map.mp hl
    obtain rfl | hn := List.mem_cons.mp hn
    · exact .inl ⟨[], es, rfl, List.mem_map_of_mem he⟩
    · have hc := child_of_mem hwf he
      obtain ⟨ps, fs, hps, hk⟩ | hi := ih e he (wf_child hwf hc) hm hn
      · exact .inl ⟨_ :: ps, fs, (locate_cons hc ps).trans hps, hk⟩
      · exact .inr hi
  | arr xs ih =>
    rw [leaves, leavesElems_eq] at hl
    obtain ⟨b, hb, hl⟩ := List.mem_flatMap.mp hl
    obtain ⟨e, he, rfl⟩ := List.mem_map.mp hb
    obtain ⟨m, hm, rfl⟩ := List.mem_map.mp hl
    obtain rfl | hn := List.mem_cons.mp hn
    · obtain ⟨i, -, hi⟩ := mem_keys_indexed (List.mem_map_of_mem he)
      exact .inr ⟨i, hi⟩
    · obtain ⟨i, hi⟩ := List.getElem?_of_mem (mem_indexed he)
      have hc : (arr xs).child (.index i) = some e.2 := hi
      obtain ⟨ps, fs, hps, hk⟩ | hj := ih e.2 (mem_indexed he) (wf_child hwf hc) hm hn
      · exact .inl ⟨_ :: ps, fs, (locate_cons hc ps).trans hps, hk⟩
      · exact .inr hj
  | null => cases hl
  | _ =>
    obtain rfl := List.mem_singleton.mp hl
    cases hn

end MinMcp.Core.Json
