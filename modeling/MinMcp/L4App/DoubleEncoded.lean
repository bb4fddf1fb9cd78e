import MinMcp.Core.Json.Injective
import MinMcp.L1Encoding.CanonicalArgs
import MinMcp.L4App.Catalog
import MinMcp.L4App.UserSupplied

/-!
# Double-encoded arguments

A model that sends an object- or array-typed parameter as the text of its JSON means the
value (src/surface/preflight.rs:96-101), and a default is filled in for any path the
agent omitted (src/config.rs:641-646). Dispatch fills the defaults in first and decodes
then (src/surface/dispatch.rs:72-90), so a default inside the parameter finds a string
and is lost.

Two runs are compared, of the arguments and of the arguments with one parameter replaced
by its text. They stay equal but for that parameter (`Twins`): through the defaults, the
decoding and the injection of the user-supplied values.

* `shaped_eq_iff`: after decoding the parameter is the same **iff** the text is decoded
  and no default fills anything in it.
* `same_iff`: the upstream gets the same requests **iff** that is so, or a source is
  missing, or pre-flight refuses both, or the user-supplied values cover the difference.
* `covered_iff_of_text`: where the text is not decoded, they do so **iff** the parameter itself is
  user-supplied (and the hash is the same, where a header asks for it).
* `default_is_lost`: a default `body.currency` and a `body` sent as its text.
-/
namespace MinMcp.L4.DoubleEncoded

open MinMcp.Core MinMcp.L2 MinMcp.L4.Preflight MinMcp.L4.UserSupplied

/-! ## Twins -/

/-- Two objects that differ under one key only, where they hold `x` and `y`. -/
def Twins (p : String) (x y a b : Json) : Prop :=
  ∃ es, p ∈ OrderedMap.keys es ∧ a = .obj (OrderedMap.insert p x es) ∧ b = .obj (OrderedMap.insert p y es)

section Twins

variable {p : String} {x y a b : Json}

theorem Twins.eq_iff (h : Twins p x y a b) : a = b ↔ x = y := by
  obtain ⟨es, -, rfl, rfl⟩ := h
  constructor
  · intro hab
    have hl := congrArg (fun v : Json => v.get p) hab
    simpa [OrderedMap.lookup_insert_self] using hl
  · rintro rfl
    rfl

/-- A stage that rewrites the value under one key rewrites `p`'s value in both, or does
the same to both. -/
theorem Twins.touch {as bs : List (String × Json)} (h : Twins p x y (.obj as) (.obj bs)) (seg : String)
    (f : Option Json → Json) :
    Twins p (if seg = p then f (some x) else x) (if seg = p then f (some y) else y)
      (.obj (OrderedMap.insert seg (f (as.lookup seg)) as))
      (.obj (OrderedMap.insert seg (f (bs.lookup seg)) bs)) := by
  obtain ⟨es, hp, ha, hb⟩ := h
  rw [Json.obj.injEq] at ha hb
  subst ha hb
  by_cases hs : seg = p
  · subst hs
    refine ⟨es, hp, ?_, ?_⟩ <;> rw [OrderedMap.lookup_insert_self, OrderedMap.insert_insert, if_pos rfl]
  · refine ⟨OrderedMap.insert seg (f (es.lookup seg)) es, ?_, ?_, ?_⟩
    · rw [OrderedMap.mem_keys_insert]
      exact .inr hp
    · rw [if_neg hs, OrderedMap.lookup_insert_of_ne hs, OrderedMap.insert_comm (Ne.symm hs) _ _ hp]
    · rw [if_neg hs, OrderedMap.lookup_insert_of_ne hs, OrderedMap.insert_comm (Ne.symm hs) _ _ hp]

theorem Twins.obj (h : Twins p x y a b) : (∃ as, a = .obj as) ∧ ∃ bs, b = .obj bs := by
  obtain ⟨es, -, rfl, rfl⟩ := h
  exact ⟨⟨_, rfl⟩, ⟨_, rfl⟩⟩

end Twins

/-! ## The stages below one parameter -/

/-- What the defaults fill into the value of the parameter `p`. -/
def fillBelow (p : String) (ds : List (String × Json)) (x : Json) : Json :=
  ds.foldl (fun x d =>
    match Project.parsePath d.1 with
    | seg :: r :: rest => if seg = p then Project.defaultAt x (r :: rest) d.2 else x
    | _ => x) x

/-- The value of a parameter with the schema `pschema`, decoded. -/
def decodeChild (pschema val : Json) : Json :=
  let declared := (pschema.get "type").bind Json.asStr
  let val := decodeText declared val
  if declared = some "object" then decodeStringified pschema val else val

/-- The value of the parameter `p`, decoded. -/
def decodeParam (ps : List (String × Json)) (p : String) (x : Json) : Json :=
  match ps.lookup p with
  | some pschema => decodeChild pschema x
  | none => x

/-- What the writes make of the value of the parameter `p`. -/
def writeBelow (p : String) (ws : Project.Writes) (x : Json) : Json :=
  ws.foldl (fun x w =>
    match w.1 with
    | seg :: rest => if seg = p then x.put rest (.str w.2) else x
    | [] => x) x

section Stages

variable {p : String} {x y a b : Json}

theorem Twins.defaultAt (h : Twins p x y a b) (path : List String) (val : Json) :
    Twins p
      (match path with
        | seg :: r :: rest => if seg = p then Project.defaultAt x (r :: rest) val else x
        | _ => x)
      (match path with
        | seg :: r :: rest => if seg = p then Project.defaultAt y (r :: rest) val else y
        | _ => y)
      (Project.defaultAt a path val) (Project.defaultAt b path val) := by
  obtain ⟨⟨as, rfl⟩, ⟨bs, rfl⟩⟩ := h.obj
  match path with
  | [] => exact h
  | [seg] =>
    have hins : ∀ es : List (String × Json),
        Project.orInsert es seg val = OrderedMap.insert seg ((es.lookup seg).getD val) es := by
      intro es
      unfold Project.orInsert
      cases hl : es.lookup seg with
      | some v => exact (OrderedMap.insert_of_lookup hl).symm
      | none => rfl
    have ht := h.touch seg fun o => o.getD val
    simp only [Option.getD_some, ite_self] at ht
    simpa only [Project.defaultAt, hins] using ht
  | seg :: r :: rest =>
    exact h.touch seg fun o => Project.defaultAt (o.getD (.obj [])) (r :: rest) val

theorem Twins.defaults (h : Twins p x y a b) (ds : List (String × Json)) :
    Twins p (fillBelow p ds x) (fillBelow p ds y) (ds.foldl (fun a d => Project.setDefault a d.1 d.2) a)
      (ds.foldl (fun a d => Project.setDefault a d.1 d.2) b) := by
  induction ds generalizing x y a b with
  | nil => exact h
  | cons d ds ih => exact ih (h.defaultAt (Project.parsePath d.1) d.2)

theorem Twins.setAt (h : Twins p x y a b) (path : List String) (val : Json) :
    Twins p
      (match path with
        | seg :: rest => if seg = p then x.put rest val else x
        | [] => x)
      (match path with
        | seg :: rest => if seg = p then y.put rest val else y
        | [] => y)
      (Project.setAt a path val) (Project.setAt b path val) := by
  obtain ⟨⟨as, rfl⟩, ⟨bs, rfl⟩⟩ := h.obj
  match path with
  | [] => exact h
  | seg :: rest =>
    rw [Project.setAt_eq_put (by simp), Project.setAt_eq_put (by simp)]
    exact h.touch seg fun o => (o.getD (.obj [])).put rest val

theorem Twins.setAll (h : Twins p x y a b) (ws : Project.Writes) :
    Twins p (writeBelow p ws x) (writeBelow p ws y) (Project.setAll a ws) (Project.setAll b ws) := by
  induction ws generalizing x y a b with
  | nil => exact h
  | cons w ws ih => exact ih (h.setAt w.1 (.str w.2))

theorem writeBelow_cons (p : String) (w : List String × String) (ws : Project.Writes) (x : Json) :
    writeBelow p (w :: ws) x = writeBelow p ws (match w.1 with
      | seg :: rest => if seg = p then x.put rest (.str w.2) else x
      | [] => x) :=
  rfl

theorem writeBelow_of_untouched {p : String} {ws : Project.Writes}
    (h : ∀ w ∈ ws, ∀ rest, w.1 ≠ p :: rest) (x : Json) : writeBelow p ws x = x := by
  induction ws generalizing x with
  | nil => rfl
  | cons w ws ih =>
    rw [List.forall_mem_cons] at h
    rw [writeBelow_cons, ih h.2]
    split
    · next seg rest hw =>
      have hs : seg ≠ p := fun he => h.1 rest (he ▸ hw)
      rw [if_neg hs]
    · rfl

/-- A write of the parameter itself leaves nothing of its value. -/
theorem writeBelow_of_replaced {p : String} {ws : Project.Writes} (h : ∃ w ∈ ws, w.1 = [p]) (x y : Json) :
    writeBelow p ws x = writeBelow p ws y := by
  induction ws generalizing x y with
  | nil =>
    obtain ⟨w, hw, -⟩ := h
    cases hw
  | cons w ws ih =>
    rw [writeBelow_cons, writeBelow_cons]
    obtain ⟨w', hw', hp⟩ := h
    rcases List.mem_cons.mp hw' with rfl | hw'
    · simp [hp]
    · exact ih ⟨w', hw', hp⟩ _ _

/-- Writes below the parameter make no text, and leave a text as it is. -/
theorem writeBelow_eq_str_iff {p : String} {ws : Project.Writes} (h : ∀ w ∈ ws, w.1 ≠ [p]) (x : Json)
    (s : String) : writeBelow p ws x = .str s ↔ x = .str s := by
  induction ws generalizing x with
  | nil => rfl
  | cons w ws ih =>
    rw [List.forall_mem_cons] at h
    rw [writeBelow_cons, ih h.2]
    split
    · next seg rest hw =>
      split
      · next hs =>
        cases rest with
        | nil => exact absurd (hs ▸ hw) h.1
        | cons r rest =>
          cases x with
          | obj es => simp
          | _ => rw [Json.put_of_ne_obj (by simp)]
      · rfl
    · rfl

/-- One property of the decoding loop. -/
theorem decodeProps_cons (name : String) (pschema : Json) (ps as : List (String × Json)) :
    decodeProps ((name, pschema) :: ps) as =
      match as.lookup name with
      | none => decodeProps ps as
      | some val => decodeProps ps (OrderedMap.insert name (decodeChild pschema val) as) := by
  rw [decodeProps]
  rfl

theorem Twins.decodeProps {ps as bs : List (String × Json)} (hn : (OrderedMap.keys ps).Nodup)
    (h : Twins p x y (.obj as) (.obj bs)) :
    Twins p (decodeParam ps p x) (decodeParam ps p y) (.obj (decodeProps ps as))
      (.obj (decodeProps ps bs)) := by
  induction ps generalizing x y as bs with
  | nil => exact h
  | cons e ps ih =>
    obtain ⟨name, pschema⟩ := e
    rw [OrderedMap.keys_cons, List.nodup_cons] at hn
    rw [decodeProps_cons, decodeProps_cons]
    by_cases hp : name = p
    · subst hp
      have htail : ∀ z, decodeParam ps name z = z := fun z => by
        rw [decodeParam, OrderedMap.lookup_eq_none.mpr hn.1]
      have ht := h.touch name fun o => decodeChild pschema (o.getD .null)
      obtain ⟨es, hmem, ha, hb⟩ := h
      rw [Json.obj.injEq] at ha hb
      subst ha hb
      rw [OrderedMap.lookup_insert_self, OrderedMap.lookup_insert_self] at ht ⊢
      have := ih hn.2 ht
      rw [htail, htail, if_pos rfl, if_pos rfl] at this
      rw [decodeParam, List.lookup_cons_self, decodeParam, List.lookup_cons_self]
      exact this
    · have hhead : ∀ z, decodeParam ((name, pschema) :: ps) p z = decodeParam ps p z := fun z => by
        rw [decodeParam, OrderedMap.lookup_cons_of_ne (Ne.symm hp), decodeParam]
      rw [hhead, hhead]
      have hlook : as.lookup name = bs.lookup name := by
        obtain ⟨es, -, ha, hb⟩ := h
        rw [Json.obj.injEq] at ha hb
        rw [ha, hb, OrderedMap.lookup_insert_of_ne hp, OrderedMap.lookup_insert_of_ne hp]
      have ht := h.touch name fun o => decodeChild pschema (o.getD .null)
      rw [if_neg hp, if_neg hp] at ht
      cases hl : as.lookup name with
      | none =>
        rw [hl] at hlook
        rw [← hlook]
        exact ih hn.2 h
      | some val =>
        rw [hl] at hlook
        rw [hl, ← hlook] at ht
        rw [← hlook]
        exact ih hn.2 ht

end Stages

/-! ## What is filled in is seen after decoding -/

/-- Every object inside `v`, reached through keys, is one with the same keys in `w`. -/
def Kept (v w : Json) : Prop :=
  ∀ q es, v.getAt q = some (.obj es) →
    ∃ es', w.getAt q = some (.obj es') ∧ OrderedMap.keys es' = OrderedMap.keys es

/-- Every object inside `v` is one in `w`, with its keys and maybe more. -/
def Extends (v w : Json) : Prop :=
  ∀ q es, v.getAt q = some (.obj es) →
    ∃ es', w.getAt q = some (.obj es') ∧ OrderedMap.keys es ⊆ OrderedMap.keys es'

/-- An object inside `v` has a key in `w` that it lacks. -/
def Adds (v w : Json) : Prop :=
  ∃ q es es' k, v.getAt q = some (.obj es) ∧ k ∉ OrderedMap.keys es ∧
    w.getAt q = some (.obj es') ∧ k ∈ OrderedMap.keys es'

theorem Kept.refl (v : Json) : Kept v v := fun _ es h => ⟨es, h, rfl⟩

theorem Kept.trans {u v w : Json} (h : Kept u v) (h' : Kept v w) : Kept u w := by
  intro q es hq
  obtain ⟨es', hv, hk⟩ := h q es hq
  obtain ⟨es'', hw, hk'⟩ := h' q es' hv
  exact ⟨es'', hw, hk'.trans hk⟩

theorem Extends.trans {u v w : Json} (h : Extends u v) (h' : Extends v w) : Extends u w := by
  intro q es hq
  obtain ⟨es', hv, hk⟩ := h q es hq
  obtain ⟨es'', hw, hk'⟩ := h' q es' hv
  exact ⟨es'', hw, fun _ h => hk' (hk h)⟩

theorem Extends.refl (v : Json) : Extends v v := fun _ es h => ⟨es, h, fun _ hk => hk⟩

theorem Adds.extends {u v w : Json} (h : Adds u v) (h' : Extends v w) : Adds u w := by
  obtain ⟨q, es, es', k, hu, hk, hv, hk'⟩ := h
  obtain ⟨es'', hw, hsub⟩ := h' q es' hv
  exact ⟨q, es, es'', k, hu, hk, hw, hsub hk'⟩

theorem Adds.ne_of_kept {v w v' w' : Json} (h : Adds v w) (hv : Kept v v') (hw : Kept w w') : v' ≠ w' := by
  rintro rfl
  obtain ⟨q, es, es', k, hq, hk, hq', hk'⟩ := h
  obtain ⟨fs, hf, hfk⟩ := hv q es hq
  obtain ⟨fs', hf', hfk'⟩ := hw q es' hq'
  rw [hf, Option.some.injEq, Json.obj.injEq] at hf'
  subst hf'
  rw [← hfk', hfk] at hk'
  exact hk hk'

theorem kept_of_ne_obj {v : Json} (h : ∀ es, v ≠ .obj es) (w : Json) : Kept v w := by
  intro q es hq
  cases q with
  | nil => exact absurd (Option.some.inj hq) (h es)
  | cons k ks => rw [Json.getAt_of_ne_obj h] at hq; cases hq

/-- Replacing one value of an object. -/
theorem kept_insert {as : List (String × Json)} {name : String} {val val' : Json}
    (hl : as.lookup name = some val) (h : Kept val val') :
    Kept (.obj as) (.obj (OrderedMap.insert name val' as)) := by
  intro q es hq
  cases q with
  | nil =>
    rw [Json.getAt_nil, Option.some.injEq, Json.obj.injEq] at hq
    subst hq
    exact ⟨_, rfl, OrderedMap.keys_insert_of_mem _ (OrderedMap.mem_keys_of_lookup hl)⟩
  | cons k ks =>
    rw [Json.getAt_obj] at hq ⊢
    by_cases hk : k = name
    · subst hk
      rw [hl, Option.bind_some] at hq
      rw [OrderedMap.lookup_insert_self, Option.bind_some]
      exact h ks es hq
    · rw [OrderedMap.lookup_insert_of_ne hk]
      exact ⟨es, hq, rfl⟩

theorem kept_decodeText (declared : Option String) (val : Json) : Kept val (decodeText declared val) := by
  by_cases hs : ∃ s, val = .str s
  · obtain ⟨s, rfl⟩ := hs
    exact kept_of_ne_obj (Project.str_ne_obj s) _
  · have : decodeText declared val = val := by
      cases val with
      | str s => exact absurd ⟨s, rfl⟩ hs
      | _ => rfl
    rw [this]
    exact Kept.refl val

theorem decoding_kept : Decoding Kept := ⟨Kept.refl, Kept.trans, kept_decodeText, kept_insert⟩

theorem kept_decodeParam (ps : List (String × Json)) (p : String) (x : Json) :
    Kept x (decodeParam ps p x) := by
  unfold decodeParam
  split
  · next pschema _ =>
    unfold decodeChild
    dsimp only
    split
    · exact (kept_decodeText _ x).trans (decoding_kept.args pschema _)
    · exact kept_decodeText _ x
  · exact Kept.refl x

/-- A default leaves the value alone or adds a key. -/
theorem defaultAt_adds (v : Json) (path : List String) (x : Json) :
    Project.defaultAt v path x = v ∨ Adds v (Project.defaultAt v path x) := by
  induction path generalizing v with
  | nil => left; cases v <;> rfl
  | cons k ks ih =>
    rcases v.asObject_cases with ⟨es, rfl⟩ | hv
    · have hnew : ∀ y, es.lookup k = none → Adds (.obj es) (.obj (OrderedMap.insert k y es)) := by
        intro y hl
        refine ⟨[], es, _, k, rfl, OrderedMap.lookup_eq_none.mp hl, rfl, ?_⟩
        rw [OrderedMap.mem_keys_insert]
        exact .inl rfl
      cases hl : es.lookup k with
      | none =>
        right
        cases ks with
        | nil =>
          rw [Project.defaultAt, Project.orInsert, hl]
          exact hnew x hl
        | cons l ls => exact hnew _ hl
      | some c =>
        cases ks with
        | nil =>
          left
          rw [Project.defaultAt, Project.orInsert, hl]
        | cons l ls =>
          rw [Project.defaultAt, hl, Option.getD_some]
          · rcases ih c with heq | ⟨q, fs, fs', k', hq, hk, hq', hk'⟩
            · left
              rw [heq, OrderedMap.insert_of_lookup hl]
            · right
              refine ⟨k :: q, fs, fs', k', ?_, hk, ?_, hk'⟩
              · rw [Json.getAt_obj, hl]; exact hq
              · rw [Json.getAt_obj, OrderedMap.lookup_insert_self]; exact hq'
          · simp
    · left
      cases v with
      | obj es => exact absurd rfl (hv es)
      | _ => cases ks <;> rfl

theorem extends_insert {es : List (String × Json)} {k : String} {y : Json}
    (h : ∀ c, es.lookup k = some c → Extends c y) : Extends (.obj es) (.obj (OrderedMap.insert k y es)) := by
  intro q fs hq
  cases q with
  | nil =>
    rw [Json.getAt_nil, Option.some.injEq, Json.obj.injEq] at hq
    subst hq
    refine ⟨_, rfl, fun k' hk' => ?_⟩
    rw [OrderedMap.mem_keys_insert]
    exact .inr hk'
  | cons k' q =>
    rw [Json.getAt_obj] at hq ⊢
    by_cases hk : k' = k
    · subst hk
      obtain ⟨c, hc, hq⟩ := Option.bind_eq_some_iff.mp hq
      rw [OrderedMap.lookup_insert_self, Option.bind_some]
      exact h c hc q fs hq
    · rw [OrderedMap.lookup_insert_of_ne hk]
      exact ⟨fs, hq, fun _ hk => hk⟩

theorem defaultAt_extends (v : Json) (path : List String) (x : Json) :
    Extends v (Project.defaultAt v path x) := by
  induction path generalizing v with
  | nil => cases v <;> exact Extends.refl _
  | cons k ks ih =>
    rcases v.asObject_cases with ⟨es, rfl⟩ | hv
    · cases ks with
      | nil =>
        rw [Project.defaultAt, Project.orInsert]
        split
        · exact Extends.refl _
        · next hl => exact extends_insert fun c hc => by rw [hl] at hc; cases hc
      | cons l ls =>
        refine extends_insert fun c hc => ?_
        rw [hc]
        exact ih c
    · have : Project.defaultAt v (k :: ks) x = v := by
        cases v with
        | obj es => exact absurd rfl (hv es)
        | _ => cases ks <;> rfl
      rw [this]
      exact Extends.refl v

/-- What the defaults fill in below a parameter adds a key, unless it changes nothing. -/
theorem fillBelow_adds (p : String) (ds : List (String × Json)) (x : Json) :
    Extends x (fillBelow p ds x) ∧ (fillBelow p ds x = x ∨ Adds x (fillBelow p ds x)) := by
  induction ds generalizing x with
  | nil => exact ⟨Extends.refl x, .inl rfl⟩
  | cons d ds ih =>
    rw [fillBelow, List.foldl_cons, ← fillBelow]
    have hstep : ∀ y, (y = x ∨ Adds x y) → Extends x y →
        Extends x (fillBelow p ds y) ∧ (fillBelow p ds y = x ∨ Adds x (fillBelow p ds y)) := by
      intro y hy hxy
      obtain ⟨he, hf⟩ := ih y
      refine ⟨hxy.trans he, ?_⟩
      rcases hy with rfl | hy
      · exact hf
      · exact .inr (hy.extends he)
    split
    · split
      · exact hstep _ (defaultAt_adds x _ _) (defaultAt_extends x _ _)
      · exact hstep x (.inl rfl) (Extends.refl x)
    · exact hstep x (.inl rfl) (Extends.refl x)

/-! ## The text of a value -/

theorem decodeText_ne_str {declared : Option String} {x : Json} (h : ∀ s, x ≠ .str s) :
    decodeText declared x = x := by
  cases x with
  | str s => exact absurd rfl (h s)
  | _ => rfl

theorem fillBelow_str (p : String) (ds : List (String × Json)) (s : String) :
    fillBelow p ds (.str s) = .str s := by
  induction ds with
  | nil => rfl
  | cons d ds ih =>
    rw [fillBelow, List.foldl_cons, ← fillBelow]
    split
    · split
      · rw [Project.defaultAt]
        · exact ih
        · simp
        · simp
      · exact ih
    · exact ih

theorem defaultAt_eq_str {v x : Json} {path : List String} {s : String}
    (h : Project.defaultAt v path x = .str s) : v = .str s := by
  cases path with
  | nil => cases v <;> exact h
  | cons k ks =>
    rcases v.asObject_cases with ⟨es, rfl⟩ | hv
    · cases ks <;> cases h
    · cases v with
      | obj es => exact absurd rfl (hv es)
      | _ => cases ks <;> exact h

theorem fillBelow_eq_str {p : String} {ds : List (String × Json)} {x : Json} {s : String}
    (h : fillBelow p ds x = .str s) : x = .str s := by
  induction ds generalizing x with
  | nil => exact h
  | cons d ds ih =>
    rw [fillBelow, List.foldl_cons, ← fillBelow] at h
    have hx := ih h
    split at hx
    · split at hx
      · exact defaultAt_eq_str hx
      · exact hx
    · exact hx

theorem decodeChild_eq_str {pschema x : Json} {s : String} (h : decodeChild pschema x = .str s) :
    x = .str s := by
  have htext : ∀ declared, decodeText declared x = .str s → x = .str s := by
    intro declared hd
    unfold decodeText at hd
    split at hd
    · split at hd <;> first | exact hd | cases hd
    · split at hd <;> first | exact hd | cases hd
    · exact hd
  unfold decodeChild at h
  dsimp only at h
  split at h
  · rw [decode_eq] at h
    split at h
    · cases h
    · exact htext _ h
  · exact htext _ h

theorem decodeParam_eq_str {ps : List (String × Json)} {p : String} {x : Json} {s : String}
    (h : decodeParam ps p x = .str s) : x = .str s := by
  unfold decodeParam at h
  split at h
  · exact decodeChild_eq_str h
  · exact h

/-- A string is no JSON text of itself: the text has the quotes. -/
theorem render_str_ne (s : String) : (Json.str s).render ≠ s := by
  intro h
  have hl := congrArg (fun t : String => t.toList.length) h
  have hescape : ∀ cs : List Char, cs.length ≤ (cs.flatMap Json.escapeChar).length := by
    intro cs
    induction cs with
    | nil => exact Nat.le_refl 0
    | cons c cs ih =>
      have hc : 1 ≤ (Json.escapeChar c).length := by
        rcases Json.escapeChar_cases c with ⟨e, -, he⟩ | ⟨-, -, he⟩ | ⟨-, he⟩ <;> simp [he]
      rw [List.flatMap_cons, List.length_append, List.length_cons]
      omega
  have := hescape s.toList
  simp only [Json.render_toList, Json.print, Json.printString, List.length_cons, List.length_append,
    List.length_nil] at hl
  omega

/-! ## Two runs -/

/-- A call with pre-flight on, and the parameter whose value is to be sent as its text.
`hashed`: a header of the tool has `{{hash}}` in it. -/
structure Encoding where
  tool : UserSupplied.Tool
  schema : Json
  schema_wf : schema.WF
  preflight_on : preflightSchema tool = some schema
  args : List (String × Json)
  args_wf : (Json.obj args).WF
  param : String
  value : Json
  given : args.lookup param = some value
  hashed : Bool

/-- The idempotency key of a request, from the arguments before the injection.
mirrors src/surface/dispatch.rs:97-106 -/
def argsHash (t : UserSupplied.Tool) (args : Json) : String :=
  Catalogs.hex16 (Catalogs.fnv1a (L1.CanonicalArgs.canonicalArgs (shape t args)))

namespace Encoding

variable (e : Encoding)

def original : Json := .obj e.args

def encoded : Json := .obj (OrderedMap.insert e.param (.str e.value.render) e.args)

/-- The upstream gets the same requests, whatever the surroundings answer. -/
def Same (resolve : String → Option String) : Prop :=
  ∀ env, (dispatchReach e.tool resolve env e.original).sent =
      (dispatchReach e.tool resolve env e.encoded).sent ∧
    ((dispatchReach e.tool resolve env e.original).sent ≠ [] → e.hashed = true →
      argsHash e.tool e.original = argsHash e.tool e.encoded)

def defaults : List (String × Json) := (e.tool.overlay.map Overlay.defaults).getD []

def props : List (String × Json) := ((e.schema.get "properties").bind Json.asObject).getD []

/-- The parameter's declared type. -/
def declared : Option String := (e.props.lookup e.param).bind fun s => (s.get "type").bind Json.asStr

/-- The text is read again, and as a value of the declared type. -/
def Decodes : Prop :=
  e.value.depth ≤ JsonReader.depthLimit ∧
    ((e.declared = some "object" ∧ ∃ es, e.value = .obj es) ∨
      (e.declared = some "array" ∧ ∃ xs, e.value = .arr xs))

/-- No default fills anything in the value. -/
def Unfilled : Prop := fillBelow e.param e.defaults e.value = e.value

/-- The parameter in front of the injection, in the two runs. -/
def shaped : Json := decodeParam e.props e.param (fillBelow e.param e.defaults e.value)

def shapedText : Json := decodeParam e.props e.param (.str e.value.render)

/-- There are user-supplied fields at or below the parameter, and their values turn the
two into one; so does the hash, where a header asks for it. -/
def Covered (resolve : String → Option String) : Prop :=
  (∃ w ∈ writes e.tool resolve, ∃ rest, w.1 = e.param :: rest) ∧
  writeBelow e.param (writes e.tool resolve) e.shaped =
      writeBelow e.param (writes e.tool resolve) e.shapedText ∧
    (e.hashed = true → argsHash e.tool e.original = argsHash e.tool e.encoded)

/-- Pre-flight refuses the final arguments. -/
def Refused (resolve : String → Option String) (args : Json) : Prop :=
  (preflightRefusal e.tool (Project.setAll (shape e.tool args) (writes e.tool resolve))).isSome = true

theorem value_wf : e.value.WF := Json.wf_field e.args_wf e.given

theorem nodup_props : (OrderedMap.keys e.props).Nodup := by
  unfold props
  cases hp : e.schema.get "properties" with
  | none => exact List.nodup_nil
  | some props =>
    have hw := Results.wf_of_get e.schema_wf hp
    cases props with
    | obj ps => exact (Json.wf_obj.mp hw).1
    | _ => exact List.nodup_nil

/-- In front of the injection the two runs differ in the parameter only. -/
theorem twins_shape :
    Twins e.param e.shaped e.shapedText (shape e.tool e.original) (shape e.tool e.encoded) := by
  have hstart : Twins e.param e.value (.str e.value.render) e.original e.encoded :=
    ⟨e.args, OrderedMap.mem_keys_of_lookup e.given, by rw [OrderedMap.insert_of_lookup e.given, original], rfl⟩
  have hdef := hstart.defaults e.defaults
  rw [fillBelow_str] at hdef
  have hdecode : ∀ as, decodeStringified e.schema (.obj as) = .obj (decodeProps e.props as) := by
    intro as
    rw [decode_eq, props]
    cases (e.schema.get "properties").bind Json.asObject <;> rfl
  unfold shape
  rw [e.preflight_on]
  obtain ⟨⟨as, ha⟩, ⟨bs, hb⟩⟩ := hdef.obj
  have hd := (ha ▸ hb ▸ hdef).decodeProps e.nodup_props
  rw [← hdecode, ← hdecode, ← ha, ← hb] at hd
  exact hd

theorem decodeText_render (hd : e.Decodes) : decodeText e.declared (.str e.value.render) = e.value := by
  obtain ⟨hdepth, hk⟩ := hd
  have hread := JsonReader.read_print_eq e.value e.value_wf
  rw [if_pos hdepth] at hread
  rcases hk with ⟨ht, es, hv⟩ | ⟨ht, xs, hv⟩ <;>
  · rw [ht, decodeText, Json.render_toList, hread, hv]

theorem decodeText_render_of_not (hd : ¬ e.Decodes) :
    decodeText e.declared (.str e.value.render) = .str e.value.render := by
  have hread : ∀ w, JsonReader.read e.value.render.toList = some w →
      e.value.depth ≤ JsonReader.depthLimit ∧ e.value = w := by
    intro w hw
    rw [Json.render_toList, JsonReader.read_print_eq _ e.value_wf] at hw
    split at hw
    · next h => exact ⟨h, Option.some.inj hw⟩
    · cases hw
  unfold decodeText
  split
  · next text hs hobj =>
    cases hs
    split
    · next es hr =>
      obtain ⟨hdepth, hv⟩ := hread _ hr
      exact absurd ⟨hdepth, .inl ⟨hobj, es, hv⟩⟩ hd
    · rfl
  · next text hs harr =>
    cases hs
    split
    · next xs hr =>
      obtain ⟨hdepth, hv⟩ := hread _ hr
      exact absurd ⟨hdepth, .inr ⟨harr, xs, hv⟩⟩ hd
    · rfl
  · rfl

/-- A text that is decoded stands for its value. -/
theorem shapedText_of_decodes (hd : e.Decodes) : e.shapedText = decodeParam e.props e.param e.value := by
  have htext := e.decodeText_render hd
  have hne : ∀ s, e.value ≠ .str s := by
    rcases hd.2 with ⟨-, es, hv⟩ | ⟨-, xs, hv⟩ <;> simp [hv]
  unfold declared at htext
  unfold shapedText decodeParam
  cases hl : e.props.lookup e.param with
  | none =>
    rcases hd.2 with ⟨h, -⟩ | ⟨h, -⟩ <;> · rw [declared, hl] at h; cases h
  | some pschema =>
    rw [hl, Option.bind_some] at htext
    simp only [decodeChild, htext, decodeText_ne_str hne]

theorem shapedText_of_not (hd : ¬ e.Decodes) : e.shapedText = .str e.value.render := by
  have htext := e.decodeText_render_of_not hd
  unfold declared at htext
  unfold shapedText decodeParam
  cases hl : e.props.lookup e.param with
  | none => rfl
  | some pschema =>
    rw [hl, Option.bind_some] at htext
    have hstr : ∀ s, decodeStringified pschema (.str s) = .str s := by
      intro s
      rw [decode_eq]
      cases (pschema.get "properties").bind Json.asObject <;> rfl
    simp only [decodeChild, htext, hstr, ite_self]

/-- **Decoding.** In front of the injection the parameter is the same in both runs iff
its text is decoded and no default fills anything in it. -/
theorem shaped_eq_iff : e.shaped = e.shapedText ↔ e.Decodes ∧ e.Unfilled := by
  by_cases hd : e.Decodes
  · rw [e.shapedText_of_decodes hd, shaped, Unfilled, and_iff_right hd]
    constructor
    · intro h
      rcases (fillBelow_adds e.param e.defaults e.value).2 with heq | hadds
      · exact heq
      · exact absurd h.symm (hadds.ne_of_kept (kept_decodeParam _ _ _) (kept_decodeParam _ _ _))
    · intro h
      rw [h]
  · rw [e.shapedText_of_not hd]
    refine iff_of_false (fun h => ?_) fun h => hd h.1
    -- the value would be the text of itself
    have hv := fillBelow_eq_str (decodeParam_eq_str h)
    exact render_str_ne e.value.render (congrArg Json.render hv).symm

/-- The final arguments differ in the parameter only. -/
theorem final_eq_iff (resolve : String → Option String) :
    Project.setAll (shape e.tool e.original) (writes e.tool resolve) =
        Project.setAll (shape e.tool e.encoded) (writes e.tool resolve) ↔
      writeBelow e.param (writes e.tool resolve) e.shaped =
        writeBelow e.param (writes e.tool resolve) e.shapedText :=
  (e.twins_shape.setAll (writes e.tool resolve)).eq_iff

/-- A text that is not decoded is covered where the parameter itself is user-supplied, and only there:
a path below it finds a string. -/
theorem covered_iff_of_text (hd : ¬ e.Decodes) (resolve : String → Option String) :
    e.Covered resolve ↔ (∃ w ∈ writes e.tool resolve, w.1 = [e.param]) ∧
      (e.hashed = true → argsHash e.tool e.original = argsHash e.tool e.encoded) := by
  unfold Covered
  constructor
  · rintro ⟨-, hwrite, hhash⟩
    refine ⟨?_, hhash⟩
    by_contra hno
    have hbelow : ∀ w ∈ writes e.tool resolve, w.1 ≠ [e.param] := fun w hw hp => hno ⟨w, hw, hp⟩
    have htext := (writeBelow_eq_str_iff hbelow e.shapedText e.value.render).mpr (e.shapedText_of_not hd)
    rw [htext, writeBelow_eq_str_iff hbelow] at hwrite
    exact hd (e.shaped_eq_iff.mp (hwrite.trans (e.shapedText_of_not hd).symm)).1
  · rintro ⟨⟨w, hw, hp⟩, hhash⟩
    exact ⟨⟨w, hw, [], hp⟩, writeBelow_of_replaced ⟨w, hw, hp⟩ _ _, hhash⟩

theorem head_sent_open {resolve : String → Option String}
    (hr : ∀ u ∈ e.tool.userSupplied, resolve u.2 ≠ none)
    {args : Json} (h : ¬ e.Refused resolve args) :
    (dispatchReach e.tool resolve (openEnv fun _ => none) args).sent.head? =
      some (Project.setAll (shape e.tool args) (writes e.tool resolve)) := by
  have hsent : ¬ Unsent e.tool resolve args := by
    rintro (⟨u, hu, hn⟩ | hp)
    · exact hr u hu hn
    · exact h hp
  rw [sent_open hsent]
  rfl

/-- Arguments that come to the same before the injection or after it get the same calls. -/
theorem sent_congr {resolve : String → Option String} (hr : ∀ u ∈ e.tool.userSupplied, resolve u.2 ≠ none)
    {a b : Json} (h : Project.setAll (shape e.tool a) (writes e.tool resolve) =
      Project.setAll (shape e.tool b) (writes e.tool resolve)) (env : Surroundings) :
    (dispatchReach e.tool resolve env a).sent = (dispatchReach e.tool resolve env b).sent := by
  unfold dispatchReach
  rw [inject_ok hr, inject_ok hr, ← writes, h]

/-- **Double encoding.** The upstream gets the same requests for the arguments and for
the arguments with one parameter replaced by its text iff a source is missing, or
pre-flight refuses both, or the text is decoded and no default fills anything in the
value, or the user-supplied values cover the difference. -/
theorem same_iff (resolve : String → Option String) :
    e.Same resolve ↔ (∃ u ∈ e.tool.userSupplied, resolve u.2 = none) ∨
      (e.Refused resolve e.original ∧ e.Refused resolve e.encoded) ∨
      (e.Decodes ∧ e.Unfilled) ∨ e.Covered resolve := by
  by_cases hmiss : ∃ u ∈ e.tool.userSupplied, resolve u.2 = none
  · refine iff_of_true (fun env => ?_) (.inl hmiss)
    rw [sent_of_unsent (.inl hmiss), sent_of_unsent (.inl hmiss)]
    exact ⟨rfl, fun h => absurd rfl h⟩
  have hr : ∀ u ∈ e.tool.userSupplied, resolve u.2 ≠ none := fun u hu hn => hmiss ⟨u, hu, hn⟩
  constructor
  · intro h
    obtain ⟨hsent, hhash⟩ := h (openEnv fun _ => none)
    by_cases ho : e.Refused resolve e.original
    · rw [sent_of_unsent (.inr ho)] at hsent
      refine .inr (.inl ⟨ho, ?_⟩)
      by_contra hn
      have hhead := e.head_sent_open hr hn
      rw [← hsent] at hhead
      cases hhead
    · have hhead := e.head_sent_open hr ho
      have hne : (dispatchReach e.tool resolve (openEnv fun _ => none) e.original).sent ≠ [] := by
        intro hnil
        rw [hnil] at hhead
        cases hhead
      have hwrite : writeBelow e.param (writes e.tool resolve) e.shaped =
          writeBelow e.param (writes e.tool resolve) e.shapedText := by
        by_cases hn : e.Refused resolve e.encoded
        · rw [hsent, sent_of_unsent (.inr hn)] at hne
          exact absurd rfl hne
        · rw [hsent, e.head_sent_open hr hn, Option.some.injEq] at hhead
          exact (e.final_eq_iff resolve).mp hhead.symm
      by_cases ht : ∃ w ∈ writes e.tool resolve, ∃ rest, w.1 = e.param :: rest
      · exact .inr (.inr (.inr ⟨ht, hwrite, hhash hne⟩))
      · have hno : ∀ w ∈ writes e.tool resolve, ∀ rest, w.1 ≠ e.param :: rest :=
          fun w hw rest he => ht ⟨w, hw, rest, he⟩
        rw [writeBelow_of_untouched hno, writeBelow_of_untouched hno] at hwrite
        exact .inr (.inr (.inl (e.shaped_eq_iff.mp hwrite)))
  · intro h env
    have hfinal : e.shaped = e.shapedText → (dispatchReach e.tool resolve env e.original).sent =
        (dispatchReach e.tool resolve env e.encoded).sent ∧
          argsHash e.tool e.original = argsHash e.tool e.encoded := by
      intro hs
      have hshape := e.twins_shape.eq_iff.mpr hs
      exact ⟨e.sent_congr hr (by rw [hshape]) env, by rw [argsHash, argsHash, hshape]⟩
    rcases h with h | ⟨ho, hn⟩ | hd | ⟨-, hw, hhash⟩
    · exact absurd h hmiss
    · rw [sent_of_unsent (.inr ho), sent_of_unsent (.inr hn)]
      exact ⟨rfl, fun h => absurd rfl h⟩
    · obtain ⟨hsent, hhash⟩ := hfinal (e.shaped_eq_iff.mpr hd)
      exact ⟨hsent, fun _ _ => hhash⟩
    · exact ⟨e.sent_congr hr ((e.final_eq_iff resolve).mpr hw) env, fun _ => hhash⟩

end Encoding

/-- A tool whose overlay fills in `body.currency`. -/
def chargeTool : UserSupplied.Tool where
  overlay := some ⟨[("body.currency", .str "usd")], none, none⟩
  globalPreflight := true
  schema := .obj [("type", .str "object"), ("properties", .obj [("body", .obj [("type", .str "object")])])]
  userSupplied := []
  fromSpec := true

/-- `{"body": {"amount": "5"}}`, to be sent as `{"body": "{\"amount\":\"5\"}"}`. -/
def chargeBody : Encoding where
  tool := chargeTool
  schema := chargeTool.schema
  schema_wf := by simp [chargeTool, Json.WF, Json.WFEntries]
  preflight_on := rfl
  args := [("body", .obj [("amount", .str "5")])]
  args_wf := by simp [Json.WF, Json.WFEntries]
  param := "body"
  value := .obj [("amount", .str "5")]
  given := rfl
  hashed := false

/-- The default finds a string in its way: the call with the text goes out without the
currency. -/
theorem default_is_lost : ¬ chargeBody.Same fun _ => none := by
  intro h
  have hsent := (h (openEnv fun _ => none)).1
  have hfull : (dispatchReach chargeTool (fun _ => none) (openEnv fun _ => none) chargeBody.original).sent =
      [.obj [("body", .obj [("amount", .str "5"), ("currency", .str "usd")])]] := by decide +kernel
  have hlost : (dispatchReach chargeTool (fun _ => none) (openEnv fun _ => none) chargeBody.encoded).sent =
      [.obj [("body", .obj [("amount", .str "5")])]] := by decide +kernel
  have hboth := hfull.symm.trans (hsent.trans hlost)
  revert hboth
  decide

end MinMcp.L4.DoubleEncoded
