import MinMcp.Core.Text.Debug
import Mathlib.Data.List.DropRight

/-!
# Secret references

A text of the configuration can hold references to secrets, `${NAME}` or `${scheme:arg}`
(src/secrets.rs). `pieces` finds them, `expand` puts the values in their place, and
`expand_env` does the same where only the environment can be read yet.

What the environment, the files and Vault say can change from one reference to the next; `world n` is
what they say when the reference number `n` of a text is resolved.

* `write_pieces`: the pieces of a text are the text. `formed_pieces`: its literals hold no `${` and
  its references no `}`. `pieces_error_iff`: it has none exactly if a `${` in it is left open.
* `expand_eq_expandEnv`: both expanders, where every reference is to the environment.
* `expand_eq_fill`: a value stands where its reference stood, as it is.
* `expand_congr`: what is resolved are the references of the text and no others.
* `expanded_once`: all of this together.
-/
namespace MinMcp.L4.Secrets

open MinMcp.Core.Text

/-- mirrors src/secrets.rs:54-57 -/
inductive Piece where
  | lit (text : List Char)
  | ref (reference : List Char)
  deriving DecidableEq

/-- The text in front of the first `${` and the text behind it. -/
def splitOpen : List Char → Option (List Char × List Char)
  | [] => none
  | c :: cs =>
    if ['$', '{'].isPrefixOf (c :: cs) then some ([], cs.tail)
    else (splitOpen cs).map fun cut => (c :: cut.1, cut.2)

/-- The text in front of the first `sep` and the text behind it. -/
def splitOnce (sep : Char) : List Char → Option (List Char × List Char)
  | [] => none
  | c :: cs => if c = sep then some ([], cs) else (splitOnce sep cs).map fun cut => (c :: cut.1, cut.2)

theorem splitOpen_eq {cs before after : List Char} (h : splitOpen cs = some (before, after)) :
    cs = before ++ '$' :: '{' :: after := by
  induction cs generalizing before with
  | nil => cases h
  | cons c cs ih =>
    rw [splitOpen] at h
    split at h
    · next hp =>
      obtain ⟨rfl, rfl⟩ := Prod.mk.inj (Option.some.inj h)
      obtain ⟨t, ht⟩ := List.isPrefixOf_iff_prefix.mp hp
      obtain ⟨rfl, rfl⟩ := List.cons.inj ht
      rfl
    · obtain ⟨cut, hcut, hc⟩ := Option.map_eq_some_iff.mp h
      obtain ⟨rfl, rfl⟩ := Prod.mk.inj hc
      rw [@ih cut.1 hcut]; rfl

theorem splitOnce_eq {sep : Char} {cs before after : List Char} (h : splitOnce sep cs = some (before, after)) :
    cs = before ++ sep :: after := by
  induction cs generalizing before with
  | nil => cases h
  | cons c cs ih =>
    rw [splitOnce] at h
    split at h
    · next hc =>
      obtain ⟨rfl, rfl⟩ := Prod.mk.inj (Option.some.inj h)
      rw [hc]; rfl
    · obtain ⟨cut, hcut, hc⟩ := Option.map_eq_some_iff.mp h
      obtain ⟨rfl, rfl⟩ := Prod.mk.inj hc
      rw [@ih cut.1 hcut]; rfl

/-! ## The pieces of a text -/

/-- A literal, unless it is empty. -/
def literal (text : List Char) : List Piece := if text = [] then [] else [.lit text]

/-- The pieces of `rest`, a tail of the template.
mirrors src/secrets.rs:59-75 -/
def piecesFrom (template rest : List Char) : Except String (List Piece) :=
  match _hopen : splitOpen rest with
  | none => .ok (literal rest)
  | some (before, after) =>
    match _hclose : splitOnce '}' after with
    | none => .error s!"unterminated $\x7b...\x7d in {String.ofList (debugStr template)}"
    | some (reference, rest') =>
      (piecesFrom template rest').map fun ps => literal before ++ .ref reference :: ps
termination_by rest.length
decreasing_by
  rw [splitOpen_eq _hopen, splitOnce_eq _hclose]
  simp only [List.length_append, List.length_cons]
  omega

def pieces (template : List Char) : Except String (List Piece) := piecesFrom template template

def Piece.write : Piece → List Char
  | .lit text => text
  | .ref reference => '$' :: '{' :: (reference ++ ['}'])

def write (ps : List Piece) : List Char := ps.flatMap Piece.write

@[simp] theorem write_cons (p : Piece) (ps : List Piece) : write (p :: ps) = p.write ++ write ps := rfl

@[simp] theorem write_append (ps qs : List Piece) : write (ps ++ qs) = write ps ++ write qs :=
  List.flatMap_append

@[simp] theorem write_literal (text : List Char) : write (literal text) = text := by
  unfold literal
  split
  · next h => rw [h]; rfl
  · exact List.append_nil text

variable {template rest before after reference rest' : List Char} {ps : List Piece}

theorem piecesFrom_none (h : splitOpen rest = none) : piecesFrom template rest = .ok (literal rest) := by
  rw [piecesFrom]
  split <;> simp_all

theorem piecesFrom_open (h : splitOpen rest = some (before, after)) (hc : splitOnce '}' after = none) :
    piecesFrom template rest = .error s!"unterminated $\x7b...\x7d in {String.ofList (debugStr template)}" := by
  rw [piecesFrom]
  split
  · simp_all
  · next before' after' h' =>
    obtain ⟨rfl, rfl⟩ := Prod.mk.inj (Option.some.inj (h.symm.trans h'))
    split <;> simp_all

theorem piecesFrom_ref (h : splitOpen rest = some (before, after))
    (hc : splitOnce '}' after = some (reference, rest')) :
    piecesFrom template rest =
      (piecesFrom template rest').map fun ps => literal before ++ .ref reference :: ps := by
  rw [piecesFrom]
  split
  · simp_all
  · next before' after' h' =>
    obtain ⟨rfl, rfl⟩ := Prod.mk.inj (Option.some.inj (h.symm.trans h'))
    split <;> simp_all

/-- By the references, as the loop takes them. -/
theorem write_piecesFrom (h : piecesFrom template rest = .ok ps) : write ps = rest := by
  induction rest using piecesFrom.induct generalizing ps with
  | case1 rest hopen =>
    rw [piecesFrom_none hopen] at h
    obtain rfl := Except.ok.inj h
    exact write_literal rest
  | case2 rest before after hopen hclose =>
    rw [piecesFrom_open hopen hclose] at h
    cases h
  | case3 rest before after hopen reference rest' hclose ih =>
    rw [piecesFrom_ref hopen hclose] at h
    cases hps : piecesFrom template rest' with
    | error e => rw [hps] at h; cases h
    | ok qs =>
      rw [hps] at h
      obtain rfl := Except.ok.inj h
      rw [write_append, write_literal, write_cons, ih hps, splitOpen_eq hopen, splitOnce_eq hclose]
      simp [Piece.write]

theorem write_pieces {template : List Char} (h : pieces template = .ok ps) : write ps = template :=
  write_piecesFrom h

/-! ### What they are -/

theorem splitOpen_eq_none {cs : List Char} (h : splitOpen cs = none) : ¬['$', '{'] <:+: cs := by
  induction cs with
  | nil => simp
  | cons c cs ih =>
    rw [splitOpen] at h
    split at h
    · cases h
    · next hp =>
      rw [List.infix_cons_iff, not_or]
      exact ⟨fun hpre => hp (List.isPrefixOf_iff_prefix.mpr hpre), ih (Option.map_eq_none_iff.mp h)⟩

/-- The first `${` is cut at. -/
theorem notOpen_of_splitOpen {cs before after : List Char} (h : splitOpen cs = some (before, after)) :
    ¬['$', '{'] <:+: before := by
  induction cs generalizing before with
  | nil => cases h
  | cons c cs ih =>
    rw [splitOpen] at h
    split at h
    · obtain ⟨rfl, rfl⟩ := Prod.mk.inj (Option.some.inj h)
      simp
    · next hp =>
      obtain ⟨cut, hcut, hc⟩ := Option.map_eq_some_iff.mp h
      obtain ⟨rfl, rfl⟩ := Prod.mk.inj hc
      rw [List.infix_cons_iff, not_or]
      refine ⟨fun hpre => hp (List.isPrefixOf_iff_prefix.mpr (hpre.trans ?_)), ih hcut⟩
      rw [splitOpen_eq hcut]
      exact List.prefix_append (c :: cut.1) _

theorem splitOnce_eq_none {sep : Char} {cs : List Char} (h : splitOnce sep cs = none) : sep ∉ cs := by
  induction cs with
  | nil => exact List.not_mem_nil
  | cons c cs ih =>
    rw [splitOnce] at h
    split at h
    · cases h
    · next hc =>
      rw [List.mem_cons, not_or]
      exact ⟨Ne.symm hc, ih (Option.map_eq_none_iff.mp h)⟩

theorem notMem_of_splitOnce {sep : Char} {cs before after : List Char}
    (h : splitOnce sep cs = some (before, after)) : sep ∉ before := by
  induction cs generalizing before with
  | nil => cases h
  | cons c cs ih =>
    rw [splitOnce] at h
    split at h
    · obtain ⟨rfl, rfl⟩ := Prod.mk.inj (Option.some.inj h)
      exact List.not_mem_nil
    · next hc =>
      obtain ⟨cut, hcut, he⟩ := Option.map_eq_some_iff.mp h
      obtain ⟨rfl, rfl⟩ := Prod.mk.inj he
      rw [List.mem_cons, not_or]
      exact ⟨Ne.symm hc, ih hcut⟩

/-- A literal is not empty and holds no `${`, a reference holds no `}`. -/
def Piece.Formed : Piece → Prop
  | .lit text => text ≠ [] ∧ ¬['$', '{'] <:+: text
  | .ref reference => '}' ∉ reference

theorem formed_of_mem_literal {text : List Char} {p : Piece} (h : ¬['$', '{'] <:+: text)
    (hp : p ∈ literal text) : p.Formed := by
  unfold literal at hp
  split at hp
  · cases hp
  · next hne =>
    obtain rfl := List.mem_singleton.mp hp
    exact ⟨hne, h⟩

theorem formed_piecesFrom (h : piecesFrom template rest = .ok ps) : ∀ p ∈ ps, p.Formed := by
  induction rest using piecesFrom.induct generalizing ps with
  | case1 rest hopen =>
    rw [piecesFrom_none hopen] at h
    obtain rfl := Except.ok.inj h
    exact fun p hp => formed_of_mem_literal (splitOpen_eq_none hopen) hp
  | case2 rest before after hopen hclose =>
    rw [piecesFrom_open hopen hclose] at h
    cases h
  | case3 rest before after hopen reference rest' hclose ih =>
    rw [piecesFrom_ref hopen hclose] at h
    cases hps : piecesFrom template rest' with
    | error e => rw [hps] at h; cases h
    | ok qs =>
      rw [hps] at h
      obtain rfl := Except.ok.inj h
      intro p hp
      rcases List.mem_append.mp hp with hp | hp
      · exact formed_of_mem_literal (notOpen_of_splitOpen hopen) hp
      · rcases List.mem_cons.mp hp with rfl | hp
        · exact notMem_of_splitOnce hclose
        · exact ih hps p hp

theorem formed_pieces {template : List Char} (h : pieces template = .ok ps) : ∀ p ∈ ps, p.Formed :=
  formed_piecesFrom h

/-- A `${` with no `}` behind it. -/
def Unterminated (cs : List Char) : Prop := ∃ after, '$' :: '{' :: after <:+ cs ∧ '}' ∉ after

/-- Behind a reference nothing is left open that was not open in what follows. -/
theorem unterminated_behind {cs rest' : List Char} (h : '}' :: rest' <:+ cs) :
    Unterminated cs ↔ Unterminated rest' := by
  constructor
  · rintro ⟨after, hafter, hclose⟩
    rcases List.suffix_or_suffix_of_suffix h hafter with hs | hs
    · rw [List.suffix_cons_iff, List.suffix_cons_iff] at hs
      rcases hs with hs | hs | hs
      · cases hs
      · cases hs
      · exact absurd (hs.subset List.mem_cons_self) hclose
    · rw [List.suffix_cons_iff] at hs
      rcases hs with hs | hs
      · cases hs
      · exact ⟨after, hs, hclose⟩
  · rintro ⟨after, hafter, hclose⟩
    exact ⟨after, (hafter.trans (List.suffix_cons '}' rest')).trans h, hclose⟩

theorem piecesFrom_error_iff (template rest : List Char) :
    (∃ e, piecesFrom template rest = .error e) ↔ Unterminated rest := by
  induction rest using piecesFrom.induct with
  | case1 rest hopen =>
    rw [piecesFrom_none hopen]
    refine ⟨fun ⟨e, he⟩ => (by cases he), fun ⟨after, hafter, _⟩ => ?_⟩
    have hpre : ['$', '{'] <+: '$' :: '{' :: after := List.prefix_append ['$', '{'] after
    exact absurd (hpre.isInfix.trans hafter.isInfix) (splitOpen_eq_none hopen)
  | case2 rest before after hopen hclose =>
    rw [piecesFrom_open hopen hclose]
    refine ⟨fun _ => ⟨after, ?_, splitOnce_eq_none hclose⟩, fun _ => ⟨_, rfl⟩⟩
    rw [splitOpen_eq hopen]
    exact List.suffix_append before _
  | case3 rest before after hopen reference rest' hclose ih =>
    have hsuffix : '}' :: rest' <:+ rest := by
      rw [splitOpen_eq hopen, splitOnce_eq hclose]
      exact ⟨before ++ '$' :: '{' :: reference, by simp⟩
    rw [piecesFrom_ref hopen hclose, unterminated_behind hsuffix, ← ih]
    cases piecesFrom template rest' with
    | error e => exact ⟨fun _ => ⟨e, rfl⟩, fun _ => ⟨e, rfl⟩⟩
    | ok qs => exact ⟨fun ⟨e, he⟩ => (by cases he), fun ⟨e, he⟩ => (by cases he)⟩

theorem pieces_error_iff (template : List Char) :
    (∃ e, pieces template = .error e) ↔ Unterminated template := piecesFrom_error_iff template template

/-! ## The values -/

/-- What a reference can be resolved from: the environment, the files, and Vault with the values kept
of it. -/
structure Sources where
  env : String → Option String
  file : String → Except String String
  vault : String → String → Except String String

/-- mirrors src/secrets.rs:79-84 -/
def schemeAndArg (reference : List Char) : String × String :=
  match splitOnce ':' reference with
  | some (scheme, arg) => (String.ofList scheme, String.ofList arg)
  | none => ("env", String.ofList reference)

/-- mirrors src/secrets.rs:86-90 -/
def envRef (env : String → Option String) (reference : List Char) (name : String) : Except String String :=
  match env name with
  | some value => .ok value
  | none => .error s!"env var {name} referenced as $\x7b{String.ofList reference}\x7d in the config is not set"

/-- mirrors src/secrets.rs:92-97 -/
def fileRef (file : String → Except String String) (reference : List Char) (path : String) :
    Except String String :=
  match file path with
  | .ok text => .ok (String.ofList (text.toList.rdropWhile fun c => c = '\n' || c = '\r'))
  | .error e => .error s!"reading secret file {path} ($\x7b{String.ofList reference}\x7d): {e}"

/-- mirrors src/secrets.rs:191-202 -/
def vaultRef (vault : String → String → Except String String) (arg : String) : Except String String :=
  match splitOnce '#' arg.toList with
  | none => .error s!"vault reference {String.ofList (debugStr arg.toList)} must be `path#field` (KV v2)"
  | some (path, field) => vault (String.ofList path) (String.ofList field)

/-- mirrors src/secrets.rs:160-172 -/
def resolveRef (sources : Sources) (reference : List Char) : Except String String :=
  match schemeAndArg reference with
  | ("env", name) => envRef sources.env reference name
  | ("file", path) => fileRef sources.file reference path
  | ("vault", arg) => vaultRef sources.vault arg
  | (other, _) => .error (s!"unknown secret scheme {String.ofList (debugStr other.toList)} in " ++
      s!"$\x7b{String.ofList reference}\x7d (env, file, or vault)")

/-- The resolver of a text that is expanded from the environment alone.
mirrors src/secrets.rs:107-112 -/
def resolveEnv (env : String → Option String) (reference : List Char) : Except String String :=
  match schemeAndArg reference with
  | ("env", name) => envRef env reference name
  | (other, _) => .error (s!"$\x7b{String.ofList reference}\x7d: the {other} secret scheme is not " ++
      "available here (only env is)")

/-- One piece after the other; the first reference without a value is the error. `n` references came
before. -/
def expandPieces (resolve : Nat → List Char → Except String String) : Nat → List Piece → Except String String
  | _, [] => .ok ""
  | n, .lit text :: ps => (expandPieces resolve n ps).map fun out => String.ofList text ++ out
  | n, .ref reference :: ps =>
    (resolve n reference).bind fun value => (expandPieces resolve (n + 1) ps).map fun out => value ++ out

/-- mirrors src/secrets.rs:146-158 -/
def expand (world : Nat → Sources) (template : List Char) : Except String String :=
  (pieces template).bind fun ps => expandPieces (fun n => resolveRef (world n)) 0 ps

/-- mirrors src/secrets.rs:99-116 -/
def expandEnv (env : Nat → String → Option String) (template : List Char) : Except String String :=
  (pieces template).bind fun ps => expandPieces (fun n => resolveEnv (env n)) 0 ps

/-! ## What comes out -/

/-- The references of a text, in order. -/
def refs (ps : List Piece) : List (List Char) :=
  ps.filterMap fun
    | .lit _ => none
    | .ref reference => some reference

/-- The pieces with a value for each reference, from number `n` on. -/
def fill (values : Nat → String) : Nat → List Piece → String
  | _, [] => ""
  | n, .lit text :: ps => String.ofList text ++ fill values n ps
  | n, .ref _ :: ps => values n ++ fill values (n + 1) ps

/-- Only the references of the text are asked for, each once and at its turn. -/
theorem expandPieces_congr {resolve resolve' : Nat → List Char → Except String String} {n : Nat}
    (h : ∀ k r, (refs ps)[k]? = some r → resolve (n + k) r = resolve' (n + k) r) :
    expandPieces resolve n ps = expandPieces resolve' n ps := by
  induction ps generalizing n with
  | nil => rfl
  | cons p ps ih =>
    cases p with
    | lit text =>
      rw [expandPieces, expandPieces, ih h]
    | ref reference =>
      have hfirst := h 0 reference rfl
      have hrest : expandPieces resolve (n + 1) ps = expandPieces resolve' (n + 1) ps :=
        ih fun k r hk => by
          have := h (k + 1) r hk
          rwa [show n + (k + 1) = n + 1 + k by omega] at this
      rw [expandPieces, expandPieces, ← Nat.add_zero n, hfirst, Nat.add_zero, hrest]

theorem expandPieces_eq_fill {resolve : Nat → List Char → Except String String} {values : Nat → String}
    {n : Nat} (h : ∀ k r, (refs ps)[k]? = some r → resolve (n + k) r = .ok (values (n + k))) :
    expandPieces resolve n ps = .ok (fill values n ps) := by
  induction ps generalizing n with
  | nil => rfl
  | cons p ps ih =>
    cases p with
    | lit text => rw [expandPieces, ih h]; rfl
    | ref reference =>
      have hfirst := h 0 reference rfl
      have hrest : expandPieces resolve (n + 1) ps = .ok (fill values (n + 1) ps) :=
        ih fun k r hk => by
          have := h (k + 1) r hk
          rwa [show n + (k + 1) = n + 1 + k by omega] at this
      rw [expandPieces, ← Nat.add_zero n, hfirst, Nat.add_zero, hrest]
      rfl

/-- The environment is read alike where a reference is to the environment. -/
theorem resolveRef_env {sources : Sources} {reference : List Char} (h : (schemeAndArg reference).1 = "env") :
    resolveRef sources reference = resolveEnv sources.env reference := by
  unfold resolveRef resolveEnv
  generalize schemeAndArg reference = parts at h ⊢
  obtain ⟨scheme, arg⟩ := parts
  obtain rfl : scheme = "env" := h
  rfl

/-- Both expanders, where every reference is to the environment. -/
theorem expand_eq_expandEnv {world : Nat → Sources} {template : List Char}
    (h : ∀ ps, pieces template = .ok ps → ∀ r ∈ refs ps, (schemeAndArg r).1 = "env") :
    expand world template = expandEnv (fun n => (world n).env) template := by
  unfold expand expandEnv
  cases hps : pieces template with
  | error e => rfl
  | ok ps => exact expandPieces_congr fun k r hk => resolveRef_env (h ps hps r (List.mem_of_getElem? hk))

/-- The pieces of a text are the text; the two expanders agree where they both can work; in what comes out
each reference is its value and nothing but the references of the text matters, whatever a value looks
like. -/
theorem expanded_once (template : List Char) :
    (∀ ps, pieces template = .ok ps → write ps = template) ∧
    (∀ world, (∀ ps, pieces template = .ok ps → ∀ r ∈ refs ps, (schemeAndArg r).1 = "env") →
      expand world template = expandEnv (fun n => (world n).env) template) ∧
    (∀ ps, pieces template = .ok ps →
      (∀ world values, (∀ k r, (refs ps)[k]? = some r → resolveRef (world k) r = .ok (values k)) →
        expand world template = .ok (fill values 0 ps)) ∧
      (∀ env values, (∀ k r, (refs ps)[k]? = some r → resolveEnv (env k) r = .ok (values k)) →
        expandEnv env template = .ok (fill values 0 ps)) ∧
      ∀ world world', (∀ k r, (refs ps)[k]? = some r → resolveRef (world k) r = resolveRef (world' k) r) →
        expand world template = expand world' template) := by
  refine ⟨fun ps h => write_pieces h, fun world h => expand_eq_expandEnv h, fun ps hps => ⟨?_, ?_, ?_⟩⟩
  · intro world values h
    rw [expand, hps]
    exact expandPieces_eq_fill fun k r hk => by rw [Nat.zero_add]; exact h k r hk
  · intro env values h
    rw [expandEnv, hps]
    exact expandPieces_eq_fill fun k r hk => by rw [Nat.zero_add]; exact h k r hk
  · intro world world' h
    rw [expand, expand, hps]
    exact expandPieces_congr fun k r hk => by rw [Nat.zero_add]; exact h k r hk

example : expandEnv (fun _ name => if name = "A" then some "$\x7bB\x7d" else none) "x-$\x7benv:A\x7d".toList =
    .ok "x-$\x7bB\x7d" := by
  decide +kernel

end MinMcp.L4.Secrets
