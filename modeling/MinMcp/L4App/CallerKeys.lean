import MinMcp.L4App.RefusedCall

/-!
# Whose bucket a call is charged to

A caller is keyed by its subject, else by what its connection says, else as `anonymous`
(src/caller.rs:68-70); the keys of the buckets join that text and the tool id with colons
(src/surface/dispatch.rs:376-396). Subjects and tool ids may be any text.

* `tiers_keys`: the keys of a call under all three limits.
* `Separate`: what two calls must have in common to share a bucket.
* `joined_eq_iff`: when two texts joined by a colon are the same.
* `separate_iff`: two calls are kept apart unless one caller's subject is what the other, who
  has none, goes by, or one text and a colon begin the other and the rest stands before the
  tool id.
-/
namespace MinMcp.L4.CallerKeys

open MinMcp.L4.RateLimit (RateLimits Limit Tier tiers)

/-- mirrors src/caller.rs:12-26 -/
structure Caller where
  subject : Option String
  origin : Option String
  deriving DecidableEq

/-- mirrors src/caller.rs:68-70 -/
def Caller.rateKey (c : Caller) : String := (c.subject.or c.origin).getD "anonymous"

inductive Connection where
  | peer (ip : String)
  /-- The client certificate's fingerprint. -/
  | certificate (hex : String)

/-- mirrors src/rmcp_serve.rs:782, 790-792, 813 -/
def Connection.origin : Connection → String
  | .peer ip => s!"peer:{ip}"
  | .certificate hex => s!"cert:{hex}"

/-- The caller of a request that was authenticated with this subject.
mirrors src/rmcp_serve.rs:748-752 -/
def served (subject : Option String) (connection : Option Connection) : Caller :=
  if subject = none then ⟨subject, connection.map Connection.origin⟩ else ⟨subject, none⟩

def callerKey (c : Caller) : String := s!"caller:{c.rateKey}"

def toolKey (c : Caller) (toolId : String) : String := s!"tool:{c.rateKey}:{toolId}"

def overlayKey (toolId : String) : String := s!"overlay:{toolId}"

/-- The keys of a call under a limit for each tier. -/
theorem tiers_keys (c : Caller) (toolId : String) (now : Nat) (perCaller perTool : Limit) (reportOnly : Bool)
    (overlay : String → Option Limit) (ho : (overlay toolId).isSome) :
    (tiers ⟨some perCaller, some perTool, reportOnly, overlay⟩ ⟨c.rateKey, toolId, now⟩).map Tier.key =
      [callerKey c, toolKey c toolId, overlayKey toolId] := by
  obtain ⟨l, hl⟩ := Option.isSome_iff_exists.mp ho
  unfold tiers
  simp only [hl]
  rfl

/-- The same subject, or none and the same connection. -/
def SameCaller (a b : Caller) : Prop := a.subject = b.subject ∧ (a.subject = none → a.origin = b.origin)

/-- Two calls share a bucket of a caller only as the same caller, and one of a tool only with
the same tool id. -/
structure Separate (a b : Caller) (x y : String) : Prop where
  caller : callerKey a = callerKey b → SameCaller a b
  tool : toolKey a x = toolKey b y → SameCaller a b ∧ x = y
  overlay : overlayKey x = overlayKey y → x = y

/-! ## Joined texts -/

/-- The second text is the first, a colon and more, and that stands before the second id. -/
def Nested (a b x y : String) : Prop := ∃ z, b = a ++ ":" ++ z ∧ x = z ++ ":" ++ y

theorem toList_join (a x : String) : (a ++ ":" ++ x).toList = a.toList ++ ':' :: x.toList := by
  simp [String.toList_append]

/-- Two joined texts are the same in their parts, or one reaches into the other. -/
theorem joined_eq_iff (a b x y : String) :
    a ++ ":" ++ x = b ++ ":" ++ y ↔ (a = b ∧ x = y) ∨ Nested a b x y ∨ Nested b a y x := by
  have split : ∀ a b x y : String, (∃ m, b.toList = a.toList ++ m ∧ ':' :: x.toList = m ++ ':' :: y.toList) →
      (a = b ∧ x = y) ∨ Nested a b x y := by
    intro a b x y ⟨m, hb, hx⟩
    cases m with
    | nil =>
      rw [List.append_nil] at hb
      rw [List.nil_append, List.cons.injEq] at hx
      exact Or.inl ⟨(String.toList_inj.mp hb).symm, String.toList_inj.mp hx.2⟩
    | cons c m =>
      rw [List.cons_append, List.cons.injEq] at hx
      obtain ⟨rfl, hx⟩ := hx
      refine Or.inr ⟨String.ofList m, ?_, ?_⟩ <;> rw [← String.toList_inj, toList_join, String.toList_ofList]
      · exact hb
      · exact hx
  constructor
  · intro h
    have hl := congrArg String.toList h
    rw [toList_join, toList_join, List.append_eq_append_iff] at hl
    rcases hl with h | h
    · rcases split a b x y h with h | h
      · exact Or.inl h
      · exact Or.inr (Or.inl h)
    · rcases split b a y x h with h | h
      · exact Or.inl ⟨h.1.symm, h.2.symm⟩
      · exact Or.inr (Or.inr h)
  · rintro (⟨rfl, rfl⟩ | ⟨z, rfl, rfl⟩ | ⟨z, rfl, rfl⟩)
    · rfl
    · simp only [String.append_assoc]
    · simp only [String.append_assoc]

theorem Nested.ne {a b x y : String} (h : Nested a b x y) : x ≠ y := by
  rintro rfl
  obtain ⟨z, -, h⟩ := h
  have := congrArg String.length h
  simp only [String.length_append] at this
  have : (":" : String).length = 1 := rfl
  omega

/-! ## Callers of the front end -/

/-- The text a request goes by: its subject, else its connection. -/
def goesBy (subject : Option String) (connection : Option Connection) : String :=
  subject.getD ((connection.map Connection.origin).getD "anonymous")

/-- The subject is what a caller without one goes by. -/
def Names (subject other : Option String) (connection : Option Connection) : Prop :=
  other = none ∧ subject = some ((connection.map Connection.origin).getD "anonymous")

theorem rateKey_served (subject : Option String) (connection : Option Connection) :
    (served subject connection).rateKey = goesBy subject connection := by
  cases subject <;> rfl

/-- A connection is not called `anonymous`. -/
theorem origin_ne_anonymous (c : Connection) : c.origin ≠ "anonymous" := by
  intro h
  have := congrArg (fun s => s.toList.head?) h
  cases c <;> simp [Connection.origin, toString] at this

variable {sa sb : Option String} {ca cb : Option Connection}

/-- Callers that go by one text are the same, or one is named by the other's subject. -/
theorem goesBy_eq_iff :
    goesBy sa ca = goesBy sb cb ↔
      SameCaller (served sa ca) (served sb cb) ∨ Names sa sb cb ∨ Names sb sa ca := by
  have hanon := origin_ne_anonymous
  cases sa with
  | some s =>
    cases sb with
    | some t => simp [goesBy, served, SameCaller, Names]
    | none => simp [goesBy, served, SameCaller, Names]
  | none =>
    cases sb with
    | some t => simp [goesBy, served, SameCaller, Names, eq_comm]
    | none =>
      cases ca with
      | none => cases cb <;> simp [goesBy, served, SameCaller, Names, (hanon _).symm]
      | some c => cases cb <;> simp [goesBy, served, SameCaller, Names, hanon]

theorem Names.not_same (h : Names sa sb cb) (ca : Option Connection) :
    ¬ SameCaller (served sa ca) (served sb cb) := by
  obtain ⟨rfl, rfl⟩ := h
  simp [served, SameCaller]

theorem callerKey_eq_iff :
    callerKey (served sa ca) = callerKey (served sb cb) ↔ goesBy sa ca = goesBy sb cb := by
  unfold callerKey
  rw [rateKey_served, rateKey_served]
  simp [toString]

theorem toolKey_eq_iff (x y : String) :
    toolKey (served sa ca) x = toolKey (served sb cb) y ↔
      (goesBy sa ca = goesBy sb cb ∧ x = y) ∨ Nested (goesBy sa ca) (goesBy sb cb) x y ∨
        Nested (goesBy sb cb) (goesBy sa ca) y x := by
  unfold toolKey
  rw [rateKey_served, rateKey_served, ← joined_eq_iff]
  simp [toString, String.append_assoc]

/-- **Buckets.** Two calls are kept apart exactly when neither caller's subject is what the
other goes by without one, and neither text reaches into the other's tool id. -/
theorem separate_iff (sa sb : Option String) (ca cb : Option Connection) (x y : String) :
    Separate (served sa ca) (served sb cb) x y ↔
      ¬ Names sa sb cb ∧ ¬ Names sb sa ca ∧
        ¬ Nested (goesBy sa ca) (goesBy sb cb) x y ∧ ¬ Nested (goesBy sb cb) (goesBy sa ca) y x := by
  constructor
  · intro h
    refine ⟨?_, ?_, ?_, ?_⟩
    · intro hn
      exact hn.not_same ca (h.caller (callerKey_eq_iff.mpr (goesBy_eq_iff.mpr (Or.inr (Or.inl hn)))))
    · intro hn
      have hs := h.caller (callerKey_eq_iff.mpr (goesBy_eq_iff.mpr (Or.inr (Or.inr hn))))
      exact hn.not_same cb ⟨hs.1.symm, fun he => (hs.2 (hs.1.trans he)).symm⟩
    · intro hn
      exact hn.ne (h.tool ((toolKey_eq_iff x y).mpr (Or.inr (Or.inl hn)))).2
    · intro hn
      exact hn.ne (h.tool ((toolKey_eq_iff x y).mpr (Or.inr (Or.inr hn)))).2.symm
  · intro ⟨hab, hba, hxy, hyx⟩
    have same : goesBy sa ca = goesBy sb cb → SameCaller (served sa ca) (served sb cb) := by
      intro he
      rcases goesBy_eq_iff.mp he with h | h | h
      · exact h
      · exact absurd h hab
      · exact absurd h hba
    refine ⟨fun h => same (callerKey_eq_iff.mp h), ?_, ?_⟩
    · intro h
      rcases (toolKey_eq_iff x y).mp h with ⟨he, hxy⟩ | h | h
      · exact ⟨same he, hxy⟩
      · exact absurd h hxy
      · exact absurd h hyx
    · intro h
      simpa [overlayKey, toString] using h

/-- A token whose subject is an address takes from the budget of the unnamed callers there. -/
theorem subject_names_an_address :
    ¬ Separate (served (some "peer:10.0.0.1") (some (.peer "192.0.2.7")))
      (served none (some (.peer "10.0.0.1"))) "api.search" "api.search" := by
  intro h
  exact absurd (h.caller rfl).1 (by decide)

end MinMcp.L4.CallerKeys
