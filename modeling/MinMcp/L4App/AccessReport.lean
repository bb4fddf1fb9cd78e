import Mathlib.Data.List.Dedup
import Mathlib.Data.List.Sort
import Mathlib.Data.String.Basic
import MinMcp.Core.Text.Debug
import MinMcp.L4App.Catalog
import MinMcp.L4App.HttpIdentity

/-!
# The rollout report

Before `serve --http`, `access_report` says who can reach what (src/surface/audit.rs): a row for a
caller without scopes, one for each scope the rules name and one for the process, the tools that no
rule grants, and a warning for each way the deployment is more open than it looks. It asks the
rules as written; calls go through the gate, which may be report-only.

* `reach_eq_union`: what several scopes reach is what each reaches.
* `unreachable_iff`: a tool that no rule grants is one that no caller reaches.
* `callable_iff_row`: a caller can call what the rows of its scopes have.
* `report_tells_the_gate`: enforced rules let a caller call what the rows of its scopes say, and
  nobody what the report says no rule grants; rules that are not enforced let everybody call all.
-/
namespace MinMcp.L4.AccessReports

open MinMcp.Core.Text (debugStrs)
open MinMcp.L4.Catalogs (Scopes ScopeRule patternMatch)
open MinMcp.L4.Identity (TrustedHeaders)

/-- mirrors src/config.rs:776-831 -/
structure Auth where
  jwtSecret : Option String
  jwtPublicKey : Option String
  jwtPublicKeyFile : Option String
  jwksUrl : Option String
  trustedHeaders : Option TrustedHeaders
  introspection : Bool
  allowAnonymous : Bool

/-- `env` is `MINMCP_JWT_SECRET`.
mirrors src/config.rs:1004-1017 -/
def Auth.hasVerifier (a : Auth) (env : Option String) : Bool :=
  a.jwksUrl.isSome || a.jwtPublicKey.isSome || a.jwtPublicKeyFile.isSome || (env.or a.jwtSecret).isSome

/-- mirrors src/config.rs:917-927 -/
def Auth.namesTheCaller (a : Auth) (env : Option String) : Bool :=
  match a.trustedHeaders with
  | some t => t.subject.isSome
  | none => a.hasVerifier env

/-- Which limits are there.
mirrors src/config.rs:174-187 -/
structure RateLimits where
  perCaller : Bool
  perTool : Bool
  reportOnly : Bool

/-- mirrors src/config.rs:192-194 -/
def RateLimits.any (rl : RateLimits) : Bool := rl.perCaller || rl.perTool

/-- mirrors src/config.rs:197-199 -/
def RateLimits.reportOnlyActive (rl : RateLimits) : Bool := rl.reportOnly && rl.any

/-- mirrors src/config.rs:744-746 -/
def reportOnlyActive (s : Scopes) : Bool := s.reportOnly && !s.rules.isEmpty

inductive AuditLog where
  | off | stderr | file
  deriving DecidableEq

def AuditLog.text : AuditLog → String
  | .off => "off"
  | .stderr => "stderr"
  | .file => "file"

/-- What the report is made of: the ids of the catalog's tools and of the composites, and the parts
of the configuration it reads. -/
structure Deployment where
  scopes : Scopes
  tools : List String
  composites : List String
  auth : Auth
  env : Option String
  rateLimits : RateLimits
  overlayLimits : Nat
  log : AuditLog
  signed : Bool

structure Process where
  label : String
  scopes : List String

/-- mirrors src/surface/audit.rs:297-303 -/
structure Row where
  caller : String
  scopes : List String
  tools : Nat
  composites : Nat
  sample : List String
  deriving DecidableEq

structure Report where
  source : String
  withoutIdentity : String
  revocationChecked : Bool
  rules : Nat
  enforced : Bool
  reportOnly : Bool
  callers : List Row
  /-- `granted_by_no_rule`. -/
  orphaned : Nat
  orphanedSample : List String
  orphanedComposites : List String
  perCaller : Bool
  perTool : Bool
  limitsReportOnly : Bool
  overlayLimits : Nat
  auditLog : String
  tamperEvident : Bool
  warnings : List String

section Report

variable (d : Deployment)

/-- mirrors src/surface/audit.rs:292-296 -/
def grants (scopes : List String) (ids : List String) : List String :=
  ids.filter fun id => d.scopes.allowed id scopes

/-- mirrors src/surface/audit.rs:297-303 -/
def row (sample : Nat) (who : String) (scopes : List String) : Row :=
  ⟨who, scopes, (grants d scopes d.tools).length, (grants d scopes d.composites).length,
    (grants d scopes d.tools).take sample⟩

/-- The scopes the rules name, in order.
mirrors src/surface/audit.rs:304-306 -/
def named : List String :=
  ((d.scopes.rules.map ScopeRule.scope).mergeSort fun s t => decide (s ≤ t)).dedup

/-- mirrors src/surface/audit.rs:308-313 -/
def rows (process : Process) (sample : Nat) : List Row :=
  row d sample "no scopes" [] ::
    ((named d).map fun s => row d sample s!"scope {s}" [s]) ++
    [row d sample s!"process caller ({process.label})" process.scopes]

/-- mirrors src/surface/audit.rs:318 -/
def granted (id : String) : Bool := d.scopes.rules.any fun r => r.tools.any fun p => patternMatch p id

/-- mirrors src/surface/audit.rs:319-326 -/
def orphans (ids : List String) : List String :=
  if d.scopes.rules.isEmpty then [] else ids.filter fun id => !granted d id

def identified : Bool := d.auth.hasVerifier d.env || d.auth.trustedHeaders.isSome

/-- mirrors src/surface/audit.rs:331-336 -/
def source : String :=
  match d.auth.hasVerifier d.env, d.auth.trustedHeaders.isSome with
  | true, true => "bearer or gateway headers"
  | true, false => "bearer"
  | false, true => "gateway headers"
  | false, false => "none"

/-- mirrors src/surface/audit.rs:338-344 -/
def withoutIdentity : String :=
  if !identified d then "served as the process caller (no identity is configured)"
  else if d.auth.allowAnonymous then "served as the process caller (allow_anonymous)"
  else "refused (401)"

def note (on : Bool) (text : String) : List String := if on then [text] else []

/-- mirrors src/surface/audit.rs:355-391 -/
def warnings (process : Process) : List String :=
  let processTools := grants d process.scopes d.tools
  (if d.scopes.rules.isEmpty then
      [s!"no scope rules: every caller can call every tool ({d.tools.length} tools, " ++
        s!"{d.composites.length} composites)"]
    else note (reportOnlyActive d.scopes)
      "scope rules are report-only: every caller can call every tool; rows show what enforcement would allow") ++
  (if !identified d then
      ["no caller identity: over HTTP every request is the process caller, scopes " ++ debugStrs process.scopes]
    else note (d.auth.allowAnonymous && !processTools.isEmpty)
      ("allow_anonymous: a request with no identity gets the process scopes " ++ debugStrs process.scopes ++
        s!" ({processTools.length} tools)")) ++
  note d.rateLimits.reportOnlyActive
    "rate limits are report-only: nothing is refused for exceeding per_caller / per_tool" ++
  note (d.rateLimits.any && identified d && !d.auth.namesTheCaller d.env)
    ("rate limits key on the connection, not the caller: callers behind one gateway share a bucket " ++
      "(set auth.trusted_headers.subject)") ++
  if d.log = .off then ["no audit log (log_file): nothing records who called what"]
  else note (!d.signed) "audit log is not tamper-evident (no log_hmac_key)"

/-- mirrors src/surface/audit.rs:288-419 -/
def accessReport (process : Process) (sample : Nat) : Report where
  source := source d
  withoutIdentity := withoutIdentity d
  revocationChecked := d.auth.introspection
  rules := d.scopes.rules.length
  enforced := !d.scopes.rules.isEmpty && !d.scopes.reportOnly
  reportOnly := d.scopes.reportOnly
  callers := rows d process sample
  orphaned := (orphans d d.tools).length
  orphanedSample := (orphans d d.tools).take sample
  orphanedComposites := orphans d d.composites
  perCaller := d.rateLimits.perCaller
  perTool := d.rateLimits.perTool
  limitsReportOnly := d.rateLimits.reportOnly
  overlayLimits := d.overlayLimits
  auditLog := d.log.text
  tamperEvident := d.signed
  warnings := warnings d process

end Report

/-! ## The rows and the gate -/

variable {d : Deployment} {id s : String} {scopes : List String}

theorem allowed_iff (hr : d.scopes.rules ≠ []) :
    d.scopes.allowed id scopes = true ↔
      ∃ r ∈ d.scopes.rules, r.scope ∈ scopes ∧ r.tools.any (fun p => patternMatch p id) = true := by
  unfold Scopes.allowed
  have hne : d.scopes.rules.isEmpty = false := by simpa using hr
  rw [hne, Bool.false_or, List.any_eq_true]
  constructor
  · rintro ⟨r, hr, h⟩
    rw [Bool.and_eq_true, List.any_eq_true] at h
    obtain ⟨⟨g, hg, he⟩, ht⟩ := h
    exact ⟨r, hr, by rw [← of_decide_eq_true he]; exact hg, ht⟩
  · rintro ⟨r, hr, hs, ht⟩
    refine ⟨r, hr, ?_⟩
    rw [Bool.and_eq_true, List.any_eq_true]
    exact ⟨⟨r.scope, hs, decide_eq_true rfl⟩, ht⟩

theorem mem_named : s ∈ named d ↔ ∃ r ∈ d.scopes.rules, r.scope = s := by
  unfold named
  rw [List.mem_dedup, List.mem_mergeSort, List.mem_map]

/-- What several scopes reach is what the rules' scopes among them reach, each by itself. -/
theorem reach_eq_union (hr : d.scopes.rules ≠ []) :
    d.scopes.allowed id scopes = true ↔ ∃ s ∈ scopes, s ∈ named d ∧ d.scopes.allowed id [s] = true := by
  rw [allowed_iff hr]
  constructor
  · rintro ⟨r, hm, hs, ht⟩
    refine ⟨r.scope, hs, mem_named.mpr ⟨r, hm, rfl⟩, (allowed_iff hr).mpr ⟨r, hm, ?_, ht⟩⟩
    exact List.mem_singleton.mpr rfl
  · rintro ⟨s, hs, -, ha⟩
    obtain ⟨r, hm, he, ht⟩ := (allowed_iff hr).mp ha
    rw [List.mem_singleton] at he
    exact ⟨r, hm, by rw [he]; exact hs, ht⟩

/-- A tool that no rule grants is one that no caller reaches, whatever its scopes. -/
theorem unreachable_iff (hr : d.scopes.rules ≠ []) :
    granted d id = false ↔ ∀ scopes, d.scopes.allowed id scopes = false := by
  constructor
  · intro hg scopes
    rw [Bool.eq_false_iff]
    intro ha
    obtain ⟨r, hm, -, ht⟩ := (allowed_iff hr).mp ha
    have : granted d id = true := List.any_eq_true.mpr ⟨r, hm, ht⟩
    rw [hg] at this
    cases this
  · intro h
    rw [Bool.eq_false_iff]
    intro hg
    obtain ⟨r, hm, ht⟩ := List.any_eq_true.mp hg
    have := (allowed_iff hr).mpr ⟨r, hm, List.mem_singleton.mpr rfl, ht⟩
    rw [h [r.scope]] at this
    cases this

theorem sorted_named (d : Deployment) : (named d).Pairwise fun s t => s ≤ t := by
  have hsorted : ((d.scopes.rules.map ScopeRule.scope).mergeSort fun s t => decide (s ≤ t)).Pairwise
      fun s t => decide (s ≤ t) = true := by
    refine List.pairwise_mergeSort (fun a b c hab hbc => ?_) (fun a b => ?_) _
    · simp only [decide_eq_true_eq] at *
      exact le_trans hab hbc
    · simpa using le_total a b
  exact (hsorted.imp of_decide_eq_true).sublist (List.dedup_sublist _)

/-- What a caller with these scopes can call. -/
def callable (d : Deployment) (scopes : List String) : List String :=
  d.tools.filter fun id => d.scopes.mayCall scopes id

theorem mayCall_of_enforced (he : d.scopes.reportOnly = false) :
    d.scopes.mayCall scopes id = d.scopes.allowed id scopes := by
  unfold Scopes.mayCall
  rw [he]
  rfl

theorem callable_of_enforced (he : d.scopes.reportOnly = false) : callable d scopes = grants d scopes d.tools := by
  unfold callable grants
  exact List.filter_congr fun id _ => mayCall_of_enforced he

theorem callable_of_open (h : d.scopes.rules = [] ∨ d.scopes.reportOnly = true) : callable d scopes = d.tools := by
  unfold callable
  refine List.filter_eq_self.mpr fun id _ => ?_
  unfold Scopes.mayCall
  rcases h with h | h
  · cases d.scopes.reportOnly <;> simp [Scopes.allowed, h]
  · rw [h]
    rfl

/-- The report says what the enforced rules do. -/
structure Tells (d : Deployment) (process : Process) (sample : Nat) (report : Report) : Prop where
  /-- A row counts and samples what its caller can call. -/
  rows : ∀ r ∈ report.callers, r.tools = (callable d r.scopes).length ∧ r.sample = (callable d r.scopes).take sample
  composites : ∀ r ∈ report.callers,
    r.composites = (d.composites.filter fun id => d.scopes.mayCall r.scopes id).length
  callers : report.callers.map Row.scopes = [] :: (named d).map (fun s => [s]) ++ [process.scopes]
  once : (named d).Nodup ∧ (named d).Pairwise fun s t => s ≤ t
  /-- What a caller can call is in a row of one of its scopes. -/
  union : ∀ scopes, ∀ id ∈ d.tools, id ∈ callable d scopes ↔
    ∃ s ∈ scopes, ∃ r ∈ report.callers, r.scopes = [s] ∧ id ∈ callable d [s]
  orphaned : report.orphaned = (d.tools.filter fun id => !granted d id).length
  orphanedSample : report.orphanedSample = (d.tools.filter fun id => !granted d id).take sample
  orphanedComposites : report.orphanedComposites = d.composites.filter fun id => !granted d id
  /-- Nobody can call what no rule grants, and all else somebody can. -/
  nobody : ∀ id, granted d id = false ↔ ∀ scopes, d.scopes.mayCall scopes id = false

theorem eq_row_of_mem {process : Process} {sample : Nat} {r : Row} (hm : r ∈ rows d process sample) :
    ∃ who scopes, r = row d sample who scopes := by
  rcases List.mem_append.mp hm with hm | hm
  · rcases List.mem_cons.mp hm with rfl | hm
    · exact ⟨_, _, rfl⟩
    · obtain ⟨s, -, rfl⟩ := List.mem_map.mp hm
      exact ⟨_, _, rfl⟩
  · exact ⟨_, _, List.mem_singleton.mp hm⟩

theorem callable_iff_row (hr : d.scopes.rules ≠ []) (hro : d.scopes.reportOnly = false) (process : Process)
    (sample : Nat) (hid : id ∈ d.tools) :
    id ∈ callable d scopes ↔ ∃ s ∈ scopes, ∃ r ∈ rows d process sample, r.scopes = [s] ∧ id ∈ callable d [s] := by
  rw [callable_of_enforced hro, grants, List.mem_filter, reach_eq_union hr]
  constructor
  · rintro ⟨-, s, hs, hn, ha⟩
    have hmem : row d sample s!"scope {s}" [s] ∈ rows d process sample :=
      List.mem_append_left _ (List.mem_cons_of_mem _ (List.mem_map.mpr ⟨s, hn, rfl⟩))
    refine ⟨s, hs, _, hmem, rfl, ?_⟩
    rw [callable_of_enforced hro]
    exact List.mem_filter.mpr ⟨hid, ha⟩
  · rintro ⟨s, hs, -, -, -, hc⟩
    rw [callable_of_enforced hro] at hc
    obtain ⟨s', hs', hn, ha⟩ := (reach_eq_union hr).mp (List.mem_filter.mp hc).2
    obtain rfl := List.mem_singleton.mp hs'
    exact ⟨hid, s', hs, hn, ha⟩

/-- The report tells the gate. Where it says the rules are enforced, its rows are what their callers
can call, a caller can call a tool exactly if a row of one of its scopes has it, and what it says no
rule grants is what no caller, with whatever scopes, can call. Where it says they are not, every
caller can call every tool. -/
theorem report_tells_the_gate (d : Deployment) (process : Process) (sample : Nat) :
    ((accessReport d process sample).enforced = true → Tells d process sample (accessReport d process sample)) ∧
      ((accessReport d process sample).enforced = false → ∀ scopes, callable d scopes = d.tools) := by
  refine ⟨fun he => ?_, fun hn scopes => ?_⟩
  · obtain ⟨hr, hro⟩ : d.scopes.rules ≠ [] ∧ d.scopes.reportOnly = false := by
      simpa [accessReport] using he
    have horphans (ids : List String) : orphans d ids = ids.filter fun id => !granted d id := by
      have hne : d.scopes.rules.isEmpty = false := by simpa using hr
      simp [orphans, hne]
    refine { rows := ?_, composites := ?_, callers := ?_, once := ⟨List.nodup_dedup _, sorted_named d⟩,
             union := ?_, orphaned := ?_, orphanedSample := ?_, orphanedComposites := horphans _,
             nobody := ?_ }
    · intro r hm
      obtain ⟨who, scopes, rfl⟩ := eq_row_of_mem hm
      rw [callable_of_enforced hro]
      exact ⟨rfl, rfl⟩
    · intro r hm
      obtain ⟨who, scopes, rfl⟩ := eq_row_of_mem hm
      exact congrArg List.length (List.filter_congr fun id _ => (mayCall_of_enforced hro).symm)
    · simp [accessReport, rows, row, Function.comp_def]
    · exact fun scopes id hid => callable_iff_row hr hro process sample hid
    · exact congrArg List.length (horphans d.tools)
    · exact congrArg (List.take sample) (horphans d.tools)
    · intro id
      rw [unreachable_iff hr]
      exact forall_congr' fun scopes => by rw [mayCall_of_enforced hro]
  · refine callable_of_open ?_
    by_cases hr : d.scopes.rules = []
    · exact Or.inl hr
    · simp [accessReport, hr] at hn
      exact Or.inr hn

end MinMcp.L4.AccessReports
