import MinMcp.Core.LTS
import MinMcp.Core.Json.Print
import MinMcp.L4App.Secrets
import MinMcp.L4App.Lint

/-!
# Secrets read from Vault

A `vault:path#field` reference is answered from a cache of a few minutes, or read
(src/secrets.rs). Whoever misses the cache first connects; the others wait for it in the
`OnceCell`. The client is behind a lock that is held over a read and, where Vault rejects the token,
over the new login and the second read. What was read is stored behind the lock. A caller
may be dropped where it awaits, which gives back what it holds. Which of those who wait is the next
is left open.

`Client` is what one client that is alone with Vault may send and hear.

* `clientOf`: the state of that client, read off the cell, the lock and who holds them.
* `inv_step`: a step of any caller is a step of that client, or none.
* `logins_le`: such a client logs in once, and once more for a denied read at most.
* `vault_reads_kept`: all of it for every run, and where the values that callers get come from.
-/
namespace MinMcp.L5.VaultReads

open MinMcp.Core
open MinMcp.L4.Secrets (splitOnce expandEnv)

/-! ## Logging in and reading -/

/-- mirrors src/config.rs:266-275 -/
structure VaultAppRole where
  roleId : String
  secretId : String
  mount : String

/-- mirrors src/config.rs:281-290 -/
structure VaultKubernetes where
  role : String
  jwtPath : String
  mount : String

/-- Less what only `vaultrs` is given.
mirrors src/config.rs:228-264 -/
structure VaultConfig where
  mount : String
  tokenEnv : Option String
  appRole : Option VaultAppRole
  kubernetes : Option VaultKubernetes

/-- mirrors src/secrets.rs:48-51 -/
inductive VaultLogin where
  | appRole (mount roleId secretId : String)
  | kubernetes (mount role jwtPath : String)

inductive VaultError where
  | notConfigured (reference : String)
  | template (why : String)
  | noSuchVar (var : String)
  | settings (why : String)
  | noToken
  | noJwt (path : String)
  | login (why : String)
  | read (mount path : String) (afterLogin : Bool) (why : String)
  | noField (mount path field : String) (fields : List String)

/-- mirrors src/secrets.rs:226-238 -/
def VaultConfig.login (cfg : VaultConfig) (env : String → Option String) : Except VaultError (Option VaultLogin) :=
  match cfg.appRole, cfg.kubernetes with
  | some a, _ => do
    let roleId ← (expandEnv (fun _ => env) a.roleId.toList).mapError .template
    let secretId ← (expandEnv (fun _ => env) a.secretId.toList).mapError .template
    return some (.appRole a.mount roleId secretId)
  | none, some k => .ok (some (.kubernetes k.mount k.role k.jwtPath))
  | none, none => .ok none

/-- mirrors src/secrets.rs:239-243 -/
def VaultConfig.setToken (cfg : VaultConfig) (env : String → Option String) : Except VaultError (Option String) :=
  match cfg.tokenEnv with
  | none => .ok none
  | some var =>
    match env var with
    | some token => .ok (some token)
    | none => .error (.noSuchVar var)

/-- How to log in, and the token there is without. `build` is what `vaultrs` makes of the token that
is set: the one its settings have, or what is wrong with them (the address is read with them).
mirrors src/secrets.rs:211-253 -/
def VaultConfig.settings (cfg : VaultConfig) (env : String → Option String)
    (build : Option String → Except String String) : Except VaultError (Option VaultLogin × String) :=
  (cfg.login env).bind fun login =>
    (cfg.setToken env).bind fun token =>
      ((build token).mapError .settings).map fun token => (login, token)

inductive LoginRequest where
  | appRole (mount roleId secretId : String)
  | kubernetes (mount role jwt : String)
  deriving DecidableEq

/-- `file` is what is in the file of the account's token now.
mirrors src/secrets.rs:290-304 -/
def VaultLogin.request : VaultLogin → (file : Option String) → Except VaultError LoginRequest
  | .appRole mount roleId secretId, _ => .ok (.appRole mount roleId secretId)
  | .kubernetes mount role _, some jwt => .ok (.kubernetes mount role (String.ofList (L4.Lint.trim jwt.toList)))
  | .kubernetes _ _ jwtPath, none => .error (.noJwt jwtPath)

/-- How a read came out; a 403 is `denied`. -/
inductive Reply where
  | data (data : List (String × Json))
  | denied (why : String)
  | failed (why : String)

/-- mirrors src/secrets.rs:276-285 -/
def fieldOf (mount path : String) (data : List (String × Json)) (field : String) : Except VaultError String :=
  match data.lookup field with
  | some (.str s) => .ok s
  | some other => .ok other.render
  | none => .error (.noField mount path field ((data.map Prod.fst).mergeSort (· ≤ ·)))

/-- mirrors src/secrets.rs:191-193 -/
def cut (arg : String) : Option (String × String) :=
  (splitOnce '#' arg.toList).map fun c => (String.ofList c.1, String.ofList c.2)

/-- mirrors src/secrets.rs:194 -/
def key (arg : String) : String := "vault:" ++ arg

theorem key_inj {arg arg' : String} (h : key arg = key arg') : arg = arg' := by
  have h := congrArg String.toList h
  simp only [key, String.toList_append] at h
  exact String.toList_inj.mp (List.append_cancel_left h)

/-! ## Callers -/

/-- Where a caller is in the code. `first` is the login of the connection, and `again` the read behind
a new one. -/
inductive Pc where
  | looking
  | missed
  | connecting
  | applying (first : Bool)
  | loggingIn (first : Bool)
  | wanting
  | reading (again : Bool)
  | storing (value : String)
  | done (r : Except VaultError String)
  | dropped

/-- What a caller holds: nothing, the cell that it is to fill, the client. -/
inductive Place where
  | outside
  | opener
  | inside
  deriving DecidableEq

def Pc.place : Pc → Place
  | .connecting | .applying true | .loggingIn true => .opener
  | .applying false | .loggingIn false | .reading _ => .inside
  | .looking | .missed | .wanting | .storing _ | .done _ | .dropped => .outside

structure Task where
  arg : String
  path : String
  field : String
  pc : Pc

/-- The connection; `token` is the client's. -/
inductive Cell where
  | empty
  | opening (task : Nat)
  | connected (token : String)

/-- What goes between the process and Vault; `opened` is a connection that has its token without, and
`quit` a caller who goes on with nothing heard. -/
inductive Event where
  | opened (token : String)
  | login (task : Nat) (request : LoginRequest)
  | granted (task : Nat) (token : String)
  | refused (task : Nat)
  | read (task : Nat) (token path : String)
  | replied (task : Nat) (path : String) (reply : Reply) (t : Nat)
  | quit (task : Nat)

/-- A value that a caller got at `t`; it is in the cache since `stored`. -/
structure Answer where
  arg : String
  value : String
  stored : Nat
  t : Nat
  deriving DecidableEq

structure State where
  now : Nat
  cache : String → Option (Nat × String)
  cell : Cell
  lock : Option Nat
  tasks : Nat → Option Task
  history : List Event
  answers : List Answer

/-- mirrors src/secrets.rs:29-38 -/
structure Secrets where
  vaultCfg : Option VaultConfig
  ttl : Nat

/-- The login of a process's Vault, if it has one. -/
def Secrets.login (x : Secrets) (env : String → Option String) : Option VaultLogin :=
  x.vaultCfg.bind fun cfg => (cfg.login env).toOption.join

def Secrets.mount (x : Secrets) : String := x.vaultCfg.elim "" VaultConfig.mount

inductive Label where
  | call (task : Nat) (arg : String)
  | run (task : Nat)
  | build (task : Nat) (build : Option String → Except String String)
  | apply (task : Nat) (file : Option String)
  | land (task : Nat) (login : Except String String)
  | answer (task : Nat) (reply : Reply)
  | cancel (task : Nat)
  | wait (ns : Nat)

namespace State

def goto (s : State) (i : Nat) (t : Task) (pc : Pc) : State :=
  { s with tasks := Function.update s.tasks i (some { t with pc := pc }) }

def log (s : State) (e : Event) : State := { s with history := s.history ++ [e] }

def give (s : State) (t : Task) (value : String) (stored : Nat) : State :=
  { s with answers := s.answers ++ [⟨t.arg, value, stored, s.now⟩] }

/-- mirrors src/secrets.rs:203-207 -/
def cached (s : State) (ttl : Nat) (k : String) : Option (Nat × String) :=
  (s.cache k).filter fun e => s.now - e.1 < ttl

/-- Whoever was to connect leaves the cell empty; whoever has the client leaves it to the next. -/
def giveBack (s : State) (first : Bool) : State :=
  if first then { s with cell := .empty } else { s with lock := none }

/-- mirrors src/secrets.rs:139-144, 190-201, 259-260 -/
def run (x : Secrets) (s : State) (i : Nat) (t : Task) : Option State :=
  match t.pc with
  | .looking =>
    match s.cached x.ttl (key t.arg) with
    | some (stored, value) => some ((s.give t value stored).goto i t (.done (.ok value)))
    | none => some (s.goto i t .missed)
  | .missed =>
    match x.vaultCfg, s.cell with
    | none, _ => some (s.goto i t (.done (.error (.notConfigured (key t.arg)))))
    | some _, .empty => some ({ s with cell := .opening i }.goto i t .connecting)
    | some _, .opening _ => none
    | some _, .connected _ => some (s.goto i t .wanting)
  | .wanting =>
    match s.cell, s.lock with
    | .connected token, none =>
      some (({ s with lock := some i }.log (.read i token t.path)).goto i t (.reading false))
    | _, _ => none
  | .storing value =>
    some (({ s with cache := Function.update s.cache (key t.arg) (some (s.now, value)) }.give t value s.now).goto
      i t (.done (.ok value)))
  | _ => none

/-- mirrors src/secrets.rs:211-254 -/
def build (x : Secrets) (env : String → Option String) (s : State) (i : Nat) (t : Task)
    (build : Option String → Except String String) : Option State :=
  match t.pc, x.vaultCfg with
  | .connecting, some cfg =>
    match cfg.settings env build with
    | .error e => some ((s.giveBack true).goto i t (.done (.error e)))
    | .ok (some _, _) => some (s.goto i t (.applying true))
    | .ok (none, token) =>
      if token = "" then some ((s.giveBack true).goto i t (.done (.error .noToken)))
      else some (({ s with cell := .connected token }.log (.opened token)).goto i t .wanting)
  | _, _ => none

/-- A caller whose file is gone has heard nothing on a new login.
mirrors src/secrets.rs:290-304 -/
def apply (login : Option VaultLogin) (s : State) (i : Nat) (t : Task) (file : Option String) : Option State :=
  match t.pc, login with
  | .applying first, some l =>
    match l.request file with
    | .ok request => some ((s.log (.login i request)).goto i t (.loggingIn first))
    | .error e =>
      let s' := s.giveBack first
      some ((if first then s' else s'.log (.quit i)).goto i t (.done (.error e)))
  | _, _ => none

/-- mirrors src/secrets.rs:246-254, 264-269, 305 -/
def land (s : State) (i : Nat) (t : Task) (login : Except String String) : Option State :=
  match t.pc, login with
  | .loggingIn true, .ok token =>
    some (({ s with cell := .connected token }.log (.granted i token)).goto i t .wanting)
  | .loggingIn false, .ok token =>
    some ((({ s with cell := .connected token }.log (.granted i token)).log (.read i token t.path)).goto
      i t (.reading true))
  | .loggingIn first, .error why =>
    some (((s.giveBack first).log (.refused i)).goto i t (.done (.error (.login why))))
  | _, _ => none

/-- mirrors src/secrets.rs:260-286 -/
def answer (x : Secrets) (login : Option VaultLogin) (s : State) (i : Nat) (t : Task) (reply : Reply) :
    Option State :=
  match t.pc with
  | .reading again =>
    let s' := s.log (.replied i t.path reply s.now)
    match reply with
    | .data data =>
      match fieldOf x.mount t.path data t.field with
      | .ok value => some ((s'.giveBack false).goto i t (.storing value))
      | .error e => some ((s'.giveBack false).goto i t (.done (.error e)))
    | .denied why =>
      if !again && login.isSome then some (s'.goto i t (.applying false))
      else some ((s'.giveBack false).goto i t (.done (.error (.read x.mount t.path again why))))
    | .failed why => some ((s'.giveBack false).goto i t (.done (.error (.read x.mount t.path again why))))
  | _ => none

def cancel (s : State) (i : Nat) (t : Task) : Option State :=
  match t.pc with
  | .missed | .wanting => some (s.goto i t .dropped)
  | .loggingIn first => some (((s.giveBack first).log (.quit i)).goto i t .dropped)
  | .reading _ => some (((s.giveBack false).log (.quit i)).goto i t .dropped)
  | _ => none

def step (x : Secrets) (env : String → Option String) (s : State) : Label → Option State
  | .call i arg =>
    match s.tasks i, cut arg with
    | none, some (path, field) => some (s.goto i ⟨arg, path, field, .looking⟩ .looking)
    -- no `path#field`: an error, and nothing is done
    | none, none => some s
    | some _, _ => none
  | .run i => (s.tasks i).bind (s.run x i)
  | .build i b => (s.tasks i).bind fun t => s.build x env i t b
  | .apply i file => (s.tasks i).bind fun t => s.apply (x.login env) i t file
  | .land i login => (s.tasks i).bind fun t => s.land i t login
  | .answer i reply => (s.tasks i).bind fun t => s.answer x (x.login env) i t reply
  | .cancel i => (s.tasks i).bind (s.cancel i)
  | .wait ns => some { s with now := s.now + ns }

def initial (now : Nat) : State := ⟨now, fun _ => none, .empty, none, fun _ => none, [], []⟩

end State

/-- mirrors src/secrets.rs:127-134, 190-308 -/
def reads (x : Secrets) (env : String → Option String) : LTS State Label :=
  ⟨fun s => ∃ now, s = .initial now, State.step x env⟩

/-! ## One client -/

/-- A client that sends one request at a time. -/
inductive Client where
  | offline
  | opening (task : Nat)
  | ready (token : String)
  | reading (task : Nat) (token path : String) (again : Bool)
  | denied (task : Nat) (token path : String)
  | renewing (task : Nat) (token path : String)
  | renewed (task : Nat) (token path : String)

/-- The request is one of this login. -/
def VaultLogin.asks : VaultLogin → LoginRequest → Bool
  | .appRole mount roleId secretId, r => r = .appRole mount roleId secretId
  | .kubernetes mount role _, .kubernetes mount' role' _ => mount = mount' && role = role'
  | .kubernetes .., .appRole .. => false

/-- It logs in before the first read; it reads with the token it was last given; and it logs in again
only where a read was denied, for the one who read, who then reads the same once more. -/
def Client.step (login : Option VaultLogin) : Client → Event → Option Client
  | .offline, .opened token => if login.isNone then some (.ready token) else none
  | .offline, .login i r => if login.any (VaultLogin.asks · r) then some (.opening i) else none
  | .opening i, .granted j token => if i = j then some (.ready token) else none
  | .opening i, .refused j => if i = j then some .offline else none
  | .opening i, .quit j => if i = j then some .offline else none
  | .ready token, .read i token' path => if token' = token then some (.reading i token path false) else none
  | .reading i token path again, .replied j path' reply _ =>
    if i = j ∧ path = path' then
      match reply with
      | .denied _ => some (if !again && login.isSome then .denied i token path else .ready token)
      | _ => some (.ready token)
    else none
  | .reading i token _ _, .quit j => if i = j then some (.ready token) else none
  | .denied i token path, .login j r =>
    if i = j ∧ login.any (VaultLogin.asks · r) then some (.renewing i token path) else none
  | .denied i token _, .quit j => if i = j then some (.ready token) else none
  | .renewing i _ path, .granted j token => if i = j then some (.renewed i token path) else none
  | .renewing i token _, .refused j => if i = j then some (.ready token) else none
  | .renewing i token _, .quit j => if i = j then some (.ready token) else none
  | .renewed i token path, .read j token' path' =>
    if i = j ∧ token' = token ∧ path' = path then some (.reading i token path true) else none
  | _, _ => none

def Client.hear (login : Option VaultLogin) (c : Client) (es : List Event) : Option Client :=
  es.foldlM (Client.step login) c

/-- The client that the cell, the lock and who holds them make up. -/
def clientOf (s : State) : Option Client :=
  match s.cell, s.lock with
  | .empty, none => some .offline
  | .opening i, none =>
    match (s.tasks i).map Task.pc with
    | some .connecting | some (.applying true) => some .offline
    | some (.loggingIn true) => some (.opening i)
    | _ => none
  | .connected token, none => some (.ready token)
  | .connected token, some i =>
    match s.tasks i with
    | some t =>
      match t.pc with
      | .reading again => some (.reading i token t.path again)
      | .applying false => some (.denied i token t.path)
      | .loggingIn false => some (.renewing i token t.path)
      | _ => none
    | none => none
  | _, _ => none

/-! ## What a step does -/

/-- The caller is through. -/
def Pc.Ends (pc : Pc) : Prop := (∃ r, pc = .done r) ∨ pc = .dropped

theorem Pc.Ends.place {pc : Pc} (h : pc.Ends) : pc.place = .outside := by
  rcases h with ⟨r, rfl⟩ | rfl <;> rfl

inductive Moves (x : Secrets) (login : Option VaultLogin) (s : State) : State → Prop where
  | stays : Moves x login s s
  | begins {i arg path field} (hi : s.tasks i = none) (hc : cut arg = some (path, field)) :
    Moves x login s (s.goto i ⟨arg, path, field, .looking⟩ .looking)
  | goes {i t pc} (ht : s.tasks i = some t) (ho : t.pc.place = .outside) (hn : pc = .missed ∨ pc.Ends) :
    Moves x login s (s.goto i t pc)
  | joins {i t token} (ht : s.tasks i = some t) (hpc : t.pc = .missed) (hc : s.cell = .connected token) :
    Moves x login s (s.goto i t .wanting)
  | finds {i t stored value} (ht : s.tasks i = some t) (hpc : t.pc = .looking)
    (hc : s.cached x.ttl (key t.arg) = some (stored, value)) :
    Moves x login s ((s.give t value stored).goto i t (.done (.ok value)))
  | stores {i t value} (ht : s.tasks i = some t) (hpc : t.pc = .storing value) :
    Moves x login s (({ s with cache := Function.update s.cache (key t.arg) (some (s.now, value)) }.give
      t value s.now).goto i t (.done (.ok value)))
  | opens {i t} (ht : s.tasks i = some t) (hpc : t.pc = .missed) (hx : x.vaultCfg.isSome = true)
    (hc : s.cell = .empty) :
    Moves x login s ({ s with cell := .opening i }.goto i t .connecting)
  | prepares {i t} (ht : s.tasks i = some t) (hpc : t.pc = .connecting) (hl : login.isSome = true) :
    Moves x login s (s.goto i t (.applying true))
  | fails {i t r} (ht : s.tasks i = some t) (hpc : t.pc = .connecting ∨ t.pc = .applying true) :
    Moves x login s ((s.giveBack true).goto i t (.done r))
  | connects {i t token} (ht : s.tasks i = some t) (hpc : t.pc = .connecting) (hl : login = none) :
    Moves x login s (({ s with cell := .connected token }.log (.opened token)).goto i t .wanting)
  | asks {i t first request} (ht : s.tasks i = some t) (hpc : t.pc = .applying first)
    (hl : login.any (VaultLogin.asks · request) = true) :
    Moves x login s ((s.log (.login i request)).goto i t (.loggingIn first))
  | enters {i t token} (ht : s.tasks i = some t) (hpc : t.pc = .loggingIn true) :
    Moves x login s (({ s with cell := .connected token }.log (.granted i token)).goto i t .wanting)
  | renews {i t token} (ht : s.tasks i = some t) (hpc : t.pc = .loggingIn false) :
    Moves x login s ((({ s with cell := .connected token }.log (.granted i token)).log
      (.read i token t.path)).goto i t (.reading true))
  | breaks {i t first e pc} (ht : s.tasks i = some t) (hp : pc.Ends)
    (hpc : t.pc = .loggingIn first ∧ (e = .refused i ∨ e = .quit i) ∨
      first = false ∧ e = .quit i ∧ (t.pc = .applying false ∨ ∃ again, t.pc = .reading again)) :
    Moves x login s (((s.giveBack first).log e).goto i t pc)
  | takes {i t token} (ht : s.tasks i = some t) (hpc : t.pc = .wanting) (hc : s.cell = .connected token)
    (hl : s.lock = none) :
    Moves x login s (({ s with lock := some i }.log (.read i token t.path)).goto i t (.reading false))
  | denies {i t why} (ht : s.tasks i = some t) (hpc : t.pc = .reading false) (hl : login.isSome = true) :
    Moves x login s ((s.log (.replied i t.path (.denied why) s.now)).goto i t (.applying false))
  | hears {i t again reply pc} (ht : s.tasks i = some t) (hpc : t.pc = .reading again)
    (hr : ∀ why, reply = .denied why → (!again && login.isSome) = false)
    (hp : (∃ data value, reply = .data data ∧ fieldOf x.mount t.path data t.field = .ok value ∧ pc = .storing value) ∨
      pc.Ends) :
    Moves x login s (((s.log (.replied i t.path reply s.now)).giveBack false).goto i t pc)
  | waits {ns} : Moves x login s { s with now := s.now + ns }

section Steps

variable {x : Secrets} {env : String → Option String} {s s' : State} {i : Nat} {t : Task}

theorem asks_of_request {l : VaultLogin} {file : Option String} {r : LoginRequest} (h : l.request file = .ok r) :
    l.asks r = true := by
  cases l with
  | appRole mount roleId secretId =>
    obtain rfl := Except.ok.inj h
    simp [VaultLogin.asks]
  | kubernetes mount role jwtPath =>
    cases file with
    | none => cases h
    | some jwt =>
      obtain rfl := Except.ok.inj h
      simp [VaultLogin.asks]

theorem login_of_settings {cfg : VaultConfig} {b : Option String → Except String String}
    {l : Option VaultLogin} {token : String} (hx : x.vaultCfg = some cfg)
    (h : cfg.settings env b = .ok (l, token)) : x.login env = l := by
  unfold VaultConfig.settings at h
  cases hl : cfg.login env with
  | error e =>
    rw [hl] at h
    cases h
  | ok l' =>
    rw [hl, Except.bind] at h
    cases htok : cfg.setToken env with
    | error e =>
      rw [htok] at h
      cases h
    | ok set =>
      rw [htok, Except.bind] at h
      cases hb : (b set).mapError VaultError.settings with
      | error e =>
        rw [hb] at h
        cases h
      | ok token' =>
        rw [hb] at h
        obtain ⟨rfl, rfl⟩ := Prod.mk.inj (Except.ok.inj h)
        simp [Secrets.login, hx, hl, Except.toOption]

theorem moves_of_run {l : Option VaultLogin} (ht : s.tasks i = some t) (hs : s.run x i t = some s') :
    Moves x l s s' := by
  unfold State.run at hs
  split at hs
  · next hpc =>
    split at hs
    · next hc =>
      obtain rfl := Option.some.inj hs
      exact .finds ht hpc hc
    · obtain rfl := Option.some.inj hs
      exact .goes ht (by rw [hpc]; rfl) (Or.inl rfl)
  · next hpc =>
    split at hs
    · obtain rfl := Option.some.inj hs
      exact .goes ht (by rw [hpc]; rfl) (Or.inr (Or.inl ⟨_, rfl⟩))
    · next hx hc =>
      obtain rfl := Option.some.inj hs
      exact .opens ht hpc (by rw [hx]; rfl) hc
    · cases hs
    · next hc =>
      obtain rfl := Option.some.inj hs
      exact .joins ht hpc hc
  · next hpc =>
    split at hs
    · next hc hl =>
      obtain rfl := Option.some.inj hs
      exact .takes ht hpc hc hl
    · cases hs
  · next hpc =>
    obtain rfl := Option.some.inj hs
    exact .stores ht hpc
  · cases hs

theorem moves_of_build {b : Option String → Except String String} (ht : s.tasks i = some t)
    (hs : s.build x env i t b = some s') : Moves x (x.login env) s s' := by
  unfold State.build at hs
  split at hs
  · next cfg hpc hx =>
    split at hs
    · obtain rfl := Option.some.inj hs
      exact .fails ht (Or.inl hpc)
    · next hset =>
      obtain rfl := Option.some.inj hs
      exact .prepares ht hpc (by rw [login_of_settings hx hset]; rfl)
    · next token hset =>
      split at hs
      · obtain rfl := Option.some.inj hs
        exact .fails ht (Or.inl hpc)
      · obtain rfl := Option.some.inj hs
        exact .connects ht hpc (login_of_settings hx hset)
  · cases hs

theorem moves_of_apply {l : Option VaultLogin} {file : Option String} (ht : s.tasks i = some t)
    (hs : s.apply l i t file = some s') : Moves x l s s' := by
  unfold State.apply at hs
  split at hs
  · next first login hpc =>
    split at hs
    · next request hr =>
      obtain rfl := Option.some.inj hs
      exact .asks ht hpc (asks_of_request hr)
    · obtain rfl := Option.some.inj hs
      cases first with
      | true => exact .fails ht (Or.inr hpc)
      | false => exact .breaks ht (Or.inl ⟨_, rfl⟩) (Or.inr ⟨rfl, rfl, Or.inl hpc⟩)
  · cases hs

theorem moves_of_land {l : Option VaultLogin} {login : Except String String} (ht : s.tasks i = some t)
    (hs : s.land i t login = some s') : Moves x l s s' := by
  unfold State.land at hs
  split at hs
  · next hpc =>
    obtain rfl := Option.some.inj hs
    exact .enters ht hpc
  · next hpc =>
    obtain rfl := Option.some.inj hs
    exact .renews ht hpc
  · next hpc =>
    obtain rfl := Option.some.inj hs
    exact .breaks ht (Or.inl ⟨_, rfl⟩) (Or.inl ⟨hpc, Or.inl rfl⟩)
  · cases hs

theorem moves_of_answer {l : Option VaultLogin} {reply : Reply} (ht : s.tasks i = some t)
    (hs : s.answer x l i t reply = some s') : Moves x l s s' := by
  unfold State.answer at hs
  split at hs
  · next again hpc =>
    cases reply with
    | data data =>
      dsimp only at hs
      split at hs
      · next value hf =>
        obtain rfl := Option.some.inj hs
        exact .hears ht hpc nofun (Or.inl ⟨data, value, rfl, hf, rfl⟩)
      · obtain rfl := Option.some.inj hs
        exact .hears ht hpc nofun (Or.inr (Or.inl ⟨_, rfl⟩))
    | denied why =>
      dsimp only at hs
      split at hs
      · next hd =>
        obtain ⟨rfl, hl⟩ : again = false ∧ l.isSome = true := by simpa using hd
        obtain rfl := Option.some.inj hs
        exact .denies ht hpc hl
      · next hd =>
        obtain rfl := Option.some.inj hs
        exact .hears ht hpc (fun _ _ => Bool.eq_false_iff.mpr hd) (Or.inr (Or.inl ⟨_, rfl⟩))
    | failed why =>
      obtain rfl := Option.some.inj hs
      exact .hears ht hpc nofun (Or.inr (Or.inl ⟨_, rfl⟩))
  · cases hs

theorem moves_of_cancel {l : Option VaultLogin} (ht : s.tasks i = some t) (hs : s.cancel i t = some s') :
    Moves x l s s' := by
  unfold State.cancel at hs
  split at hs
  · next hpc =>
    obtain rfl := Option.some.inj hs
    exact .goes ht (by rw [hpc]; rfl) (Or.inr (Or.inr rfl))
  · next hpc =>
    obtain rfl := Option.some.inj hs
    exact .goes ht (by rw [hpc]; rfl) (Or.inr (Or.inr rfl))
  · next hpc =>
    obtain rfl := Option.some.inj hs
    exact .breaks ht (Or.inr rfl) (Or.inl ⟨hpc, Or.inr rfl⟩)
  · next hpc =>
    obtain rfl := Option.some.inj hs
    exact .breaks ht (Or.inr rfl) (Or.inr ⟨rfl, rfl, Or.inr ⟨_, hpc⟩⟩)
  · cases hs

theorem moves_of_step {l : Label} (hs : State.step x env s l = some s') : Moves x (x.login env) s s' := by
  cases l with
  | call i arg =>
    simp only [State.step] at hs
    split at hs
    · next hi hc =>
      obtain rfl := Option.some.inj hs
      exact .begins hi hc
    · obtain rfl := Option.some.inj hs
      exact .stays
    · cases hs
  | run i =>
    obtain ⟨t, ht, hs⟩ := Option.bind_eq_some_iff.mp hs
    exact moves_of_run ht hs
  | build i b =>
    obtain ⟨t, ht, hs⟩ := Option.bind_eq_some_iff.mp hs
    exact moves_of_build ht hs
  | apply i file =>
    obtain ⟨t, ht, hs⟩ := Option.bind_eq_some_iff.mp hs
    exact moves_of_apply ht hs
  | land i login =>
    obtain ⟨t, ht, hs⟩ := Option.bind_eq_some_iff.mp hs
    exact moves_of_land ht hs
  | answer i reply =>
    obtain ⟨t, ht, hs⟩ := Option.bind_eq_some_iff.mp hs
    exact moves_of_answer ht hs
  | cancel i =>
    obtain ⟨t, ht, hs⟩ := Option.bind_eq_some_iff.mp hs
    exact moves_of_cancel ht hs
  | wait ns =>
    obtain rfl := Option.some.inj hs
    exact .waits

/-! ## The one client -/

/-- What is at a place is the caller's. -/
def Holds (s : State) (i : Nat) : Place → Prop
  | .outside => True
  | .opener => s.cell = .opening i
  | .inside => s.lock = some i

/-- Who is where, and what Vault has heard is the client's. -/
structure Single (login : Option VaultLogin) (s : State) : Prop where
  heard : ∃ c, clientOf s = some c ∧ Client.hear login .offline s.history = some c
  holds : ∀ i t, s.tasks i = some t → Holds s i t.pc.place
  wants : ∀ i t, s.tasks i = some t → t.pc = .wanting → ∃ token, s.cell = .connected token

theorem hear_snoc {login : Option VaultLogin} {c c' : Client} {es : List Event} {e : Event}
    (h : Client.hear login .offline es = some c) (he : c.step login e = some c') :
    Client.hear login .offline (es ++ [e]) = some c' := by
  rw [Client.hear, List.foldlM_append, ← Client.hear, h]
  simp [he]

theorem connected_of_lock {c : Client} {j : Nat} (h : clientOf s = some c) (hl : s.lock = some j) :
    ∃ token, s.cell = .connected token := by
  unfold clientOf at h
  rw [hl] at h
  cases hc : s.cell with
  | empty => simp [hc] at h
  | opening => simp [hc] at h
  | connected token => exact ⟨token, rfl⟩

theorem lock_of_opening {c : Client} {j : Nat} (h : clientOf s = some c) (hc : s.cell = .opening j) :
    s.lock = none := by
  cases hl : s.lock with
  | none => rfl
  | some k =>
    obtain ⟨token, ht⟩ := connected_of_lock h hl
    rw [hc] at ht
    cases ht

/-- Who holds nothing may go anywhere. -/
theorem clientOf_goto {c : Client} {pc : Pc} (h : clientOf s = some c)
    (ho : ∀ t, s.tasks i = some t → t.pc.place = .outside) : clientOf (s.goto i t pc) = some c := by
  unfold clientOf at h ⊢
  simp only [State.goto]
  split at h
  · next hc hl => simpa [hc, hl] using h
  · next j hc hl =>
    have hne : j ≠ i := by
      rintro rfl
      cases ht : s.tasks j with
      | none => simp [ht] at h
      | some t =>
        have := ho t ht
        split at h <;> next hp => simp_all [Pc.place]
    simpa [hc, hl, hne] using h
  · next hc hl => simpa [hc, hl] using h
  · next token j hc hl =>
    have hne : j ≠ i := by
      rintro rfl
      split at h
      · next t ht =>
        have := ho t ht
        split at h <;> next hp => simp_all [Pc.place]
      · cases h
    simpa [hc, hl, hne] using h
  · cases h

variable {login : Option VaultLogin}

/-- A caller goes on, with what it holds. -/
theorem Single.goes (h : Single login s) {s₁ : State} {pc : Pc} {c : Client} (htasks : s₁.tasks = s.tasks)
    (hc : clientOf (s₁.goto i t pc) = some c) (hh : Client.hear login .offline s₁.history = some c)
    (hkeep : ∀ j p, j ≠ i → Holds s j p → Holds s₁ j p) (hi : Holds s₁ i pc.place)
    (hcell : ∀ token, s.cell = .connected token → ∃ token', s₁.cell = .connected token')
    (hw : pc = .wanting → ∃ token, s₁.cell = .connected token) : Single login (s₁.goto i t pc) where
  heard := ⟨c, hc, hh⟩
  holds j u hj := by
    by_cases hji : j = i
    · subst hji
      obtain rfl : { t with pc := pc } = u := by simpa [State.goto] using hj
      exact hi
    · have hj : s.tasks j = some u := by simpa [State.goto, hji, htasks] using hj
      exact hkeep j _ hji (h.holds j u hj)
  wants j u hj hu := by
    by_cases hji : j = i
    · subst hji
      obtain rfl : { t with pc := pc } = u := by simpa [State.goto] using hj
      exact hw hu
    · have hj : s.tasks j = some u := by simpa [State.goto, hji, htasks] using hj
      obtain ⟨token, ht⟩ := h.wants j u hj hu
      exact hcell token ht

/-- Where the cell and the lock stay, others hold what they held. -/
theorem Single.steps (h : Single login s) {s₁ : State} {pc : Pc} {c : Client} (htasks : s₁.tasks = s.tasks)
    (hcell : s₁.cell = s.cell) (hlock : s₁.lock = s.lock) (hc : clientOf (s₁.goto i t pc) = some c)
    (hh : Client.hear login .offline s₁.history = some c) (hi : Holds s i pc.place)
    (hw : pc = .wanting → ∃ token, s.cell = .connected token) : Single login (s₁.goto i t pc) := by
  have hholds : ∀ j p, Holds s₁ j p = Holds s j p := by
    intro j p
    cases p <;> simp [Holds, hcell, hlock]
  refine h.goes htasks hc hh (fun j p _ hj => (hholds j p).symm ▸ hj) ((hholds i _).symm ▸ hi) ?_ ?_
  · intro token ht
    exact ⟨token, hcell.trans ht⟩
  · rwa [hcell]

/-- A caller without anything goes on without. -/
theorem Single.outside (h : Single login s) {s₁ : State} {pc : Pc} (htasks : s₁.tasks = s.tasks)
    (hcell : s₁.cell = s.cell) (hlock : s₁.lock = s.lock) (hhist : s₁.history = s.history)
    (ho : ∀ t, s.tasks i = some t → t.pc.place = .outside) (hn : pc.place = .outside)
    (hw : pc = .wanting → ∃ token, s.cell = .connected token) : Single login (s₁.goto i t pc) := by
  obtain ⟨c, hc, hh⟩ := h.heard
  refine h.steps (c := c) htasks hcell hlock ?_ (hhist.symm ▸ hh) (hn.symm ▸ trivial) hw
  refine clientOf_goto ?_ (by rwa [htasks])
  unfold clientOf at hc ⊢
  rw [hcell, hlock, htasks]
  exact hc

/-- Whoever is to connect has the cell for itself. -/
theorem keep_cell (s₁ : State) (hcell : s.cell = .opening i) (hlock : s₁.lock = s.lock) (j : Nat) (p : Place)
    (hji : j ≠ i) (hj : Holds s j p) : Holds s₁ j p := by
  cases p with
  | outside => trivial
  | opener =>
    rw [Holds, hcell] at hj
    exact absurd (Cell.opening.inj hj).symm hji
  | inside => exact hlock.trans hj

/-- Whoever has the client has it for itself. -/
theorem keep_lock (s₁ : State) {token : String} (hlock : s.lock = some i ∨ s.lock = none)
    (hcell : s.cell = .connected token) (j : Nat) (p : Place) (hji : j ≠ i) (hj : Holds s j p) : Holds s₁ j p := by
  cases p with
  | outside => trivial
  | opener =>
    rw [Holds, hcell] at hj
    cases hj
  | inside =>
    rw [Holds] at hj
    rcases hlock with hl | hl
    · exact absurd (Option.some.inj (hj.symm.trans hl)) hji
    · rw [hl] at hj
      cases hj

theorem Single.opening (h : Single login s) (ht : s.tasks i = some t) (hp : t.pc.place = .opener) :
    s.cell = .opening i ∧ s.lock = none := by
  obtain ⟨c, hc, -⟩ := h.heard
  have hcell : s.cell = .opening i := by
    have := h.holds i t ht
    rwa [hp] at this
  exact ⟨hcell, lock_of_opening hc hcell⟩

theorem Single.connected (h : Single login s) (ht : s.tasks i = some t) (hp : t.pc.place = .inside) :
    s.lock = some i ∧ ∃ token, s.cell = .connected token := by
  obtain ⟨c, hc, -⟩ := h.heard
  have hlock : s.lock = some i := by
    have := h.holds i t ht
    rwa [hp] at this
  exact ⟨hlock, connected_of_lock hc hlock⟩

theorem Single.client (h : Single login s) {c : Client} (hc : clientOf s = some c) :
    Client.hear login .offline s.history = some c := by
  obtain ⟨c', hc', hh⟩ := h.heard
  obtain rfl := Option.some.inj (hc.symm.trans hc')
  exact hh

theorem place_of_ends {pc : Pc} (h : pc.Ends) : pc ≠ .wanting := by
  rcases h with ⟨r, rfl⟩ | rfl <;> nofun

theorem single_move (h : Single login s) (hm : Moves x login s s') : Single login s' := by
  obtain ⟨c, hc, hh⟩ := h.heard
  cases hm with
  | stays => exact h
  | begins hi _ =>
    exact h.outside rfl rfl rfl rfl (fun t ht => by rw [hi] at ht; cases ht) rfl nofun
  | goes ht ho hn =>
    refine h.outside rfl rfl rfl rfl (fun u hu => ?_) ?_ ?_
    · obtain rfl := Option.some.inj (ht.symm.trans hu)
      exact ho
    · rcases hn with rfl | hn
      · rfl
      · exact hn.place
    · rcases hn with rfl | hn
      · nofun
      · exact fun he => absurd he (place_of_ends hn)
  | joins ht hpc hcell =>
    refine h.outside rfl rfl rfl rfl (fun u hu => ?_) rfl fun _ => ⟨_, hcell⟩
    obtain rfl := Option.some.inj (ht.symm.trans hu)
    rw [hpc]; rfl
  | finds ht hpc _ =>
    refine h.outside rfl rfl rfl rfl (fun u hu => ?_) rfl nofun
    obtain rfl := Option.some.inj (ht.symm.trans hu)
    rw [hpc]; rfl
  | stores ht hpc =>
    refine h.outside rfl rfl rfl rfl (fun u hu => ?_) rfl nofun
    obtain rfl := Option.some.inj (ht.symm.trans hu)
    rw [hpc]; rfl
  | opens ht hpc _ hcell =>
    have hlock : s.lock = none := by
      cases hl : s.lock with
      | none => rfl
      | some j =>
        obtain ⟨token, hk⟩ := connected_of_lock hc hl
        rw [hcell] at hk
        cases hk
    obtain rfl : c = .offline := by simpa [clientOf, hcell, hlock, eq_comm] using hc
    refine h.goes (c := .offline) rfl (by simp [clientOf, State.goto, hlock]) hh (fun j p _ hj => ?_) rfl ?_ nofun
    · cases p with
      | outside => trivial
      | opener => rw [Holds, hcell] at hj; cases hj
      | inside => exact hj
    · intro token hk
      rw [hcell] at hk
      cases hk
  | prepares ht hpc _ =>
    obtain ⟨hcell, hlock⟩ := h.opening ht (by rw [hpc]; rfl)
    have hc : clientOf s = some .offline := by simp [clientOf, hcell, hlock, ht, hpc]
    exact h.steps (c := .offline) rfl rfl rfl (by simp [clientOf, State.goto, hcell, hlock]) (h.client hc) hcell nofun
  | fails ht hpc =>
    obtain ⟨hcell, hlock⟩ := h.opening ht (by rcases hpc with hpc | hpc <;> rw [hpc] <;> rfl)
    have hc : clientOf s = some .offline := by
      rcases hpc with hpc | hpc <;> simp [clientOf, hcell, hlock, ht, hpc]
    refine h.goes (c := .offline) rfl (by simp [clientOf, State.goto, State.giveBack, hlock]) (h.client hc)
      (keep_cell _ hcell rfl) trivial ?_ nofun
    intro token hk
    rw [hcell] at hk
    cases hk
  | @connects i t token ht hpc hl =>
    obtain ⟨hcell, hlock⟩ := h.opening ht (by rw [hpc]; rfl)
    have hc : clientOf s = some .offline := by simp [clientOf, hcell, hlock, ht, hpc]
    exact h.goes (c := .ready token) rfl (by simp [clientOf, State.goto, State.log, hlock])
      (hear_snoc (h.client hc) (by simp [Client.step, hl])) (keep_cell _ hcell rfl) trivial
      (fun _ _ => ⟨_, rfl⟩) fun _ => ⟨_, rfl⟩
  | @asks i t first request ht hpc hl =>
    cases first with
    | true =>
      obtain ⟨hcell, hlock⟩ := h.opening ht (by rw [hpc]; rfl)
      have hc : clientOf s = some .offline := by simp [clientOf, hcell, hlock, ht, hpc]
      exact h.steps (c := .opening i) rfl rfl rfl (by simp [clientOf, State.goto, State.log, hcell, hlock])
        (hear_snoc (h.client hc) (by simp only [Client.step, hl, if_true])) hcell nofun
    | false =>
      obtain ⟨hlock, token, hcell⟩ := h.connected ht (by rw [hpc]; rfl)
      have hc : clientOf s = some (.denied i token t.path) := by simp [clientOf, hcell, hlock, ht, hpc]
      exact h.steps (c := .renewing i token t.path) rfl rfl rfl
        (by simp [clientOf, State.goto, State.log, hcell, hlock])
        (hear_snoc (h.client hc) (by simp only [Client.step, hl, and_self, if_true])) hlock nofun
  | @enters i t token ht hpc =>
    obtain ⟨hcell, hlock⟩ := h.opening ht (by rw [hpc]; rfl)
    have hc : clientOf s = some (.opening i) := by simp [clientOf, hcell, hlock, ht, hpc]
    exact h.goes (c := .ready token) rfl (by simp [clientOf, State.goto, State.log, hlock])
      (hear_snoc (h.client hc) (by simp [Client.step])) (keep_cell _ hcell rfl) trivial
      (fun _ _ => ⟨_, rfl⟩) fun _ => ⟨_, rfl⟩
  | @renews i t token' ht hpc =>
    obtain ⟨hlock, token, hcell⟩ := h.connected ht (by rw [hpc]; rfl)
    have hc : clientOf s = some (.renewing i token t.path) := by simp [clientOf, hcell, hlock, ht, hpc]
    have hgranted : Client.step login (.renewing i token t.path) (.granted i token') =
        some (.renewed i token' t.path) := by simp [Client.step]
    refine h.goes (c := .reading i token' t.path true) rfl (by simp [clientOf, State.goto, State.log, hlock])
      (hear_snoc (hear_snoc (h.client hc) hgranted) (by simp [Client.step]))
      (keep_lock _ (Or.inl hlock) hcell) hlock (fun _ _ => ⟨_, rfl⟩) nofun
  | @breaks i t first e pc ht hp hpc =>
    cases first with
    | true =>
      obtain ⟨hpc, he⟩ : t.pc = .loggingIn true ∧ (e = .refused i ∨ e = .quit i) := by simpa using hpc
      obtain ⟨hcell, hlock⟩ := h.opening ht (by rw [hpc]; rfl)
      have hc : clientOf s = some (.opening i) := by simp [clientOf, hcell, hlock, ht, hpc]
      have hstep : Client.step login (.opening i) e = some .offline := by
        rcases he with rfl | rfl <;> simp [Client.step]
      refine h.goes (c := .offline) rfl (by simp [clientOf, State.goto, State.log, State.giveBack, hlock])
        (hear_snoc (h.client hc) hstep) (keep_cell _ hcell rfl) (hp.place.symm ▸ trivial) ?_
        fun he => absurd he (place_of_ends hp)
      intro token hk
      rw [hcell] at hk
      cases hk
    | false =>
      obtain ⟨hlock, token, hcell⟩ := h.connected ht (by
        rcases hpc with ⟨hpc, -⟩ | ⟨-, -, hpc | ⟨again, hpc⟩⟩ <;> rw [hpc] <;> rfl)
      have hheard : Client.hear login .offline (s.history ++ [e]) = some (.ready token) := by
        rcases hpc with ⟨hpc, rfl | rfl⟩ | ⟨-, rfl, hpc | ⟨again, hpc⟩⟩
        all_goals
          refine hear_snoc (h.client (show clientOf s = _ by simp [clientOf, hcell, hlock, ht, hpc]; rfl)) ?_
          simp [Client.step]
      refine h.goes (c := .ready token) rfl (by simp [clientOf, State.goto, State.log, State.giveBack, hcell]) hheard
        (keep_lock _ (Or.inl hlock) hcell) (hp.place.symm ▸ trivial)
        (fun token hk => ⟨token, hk⟩) fun he => absurd he (place_of_ends hp)
  | @takes i t token ht hpc hcell hl =>
    have hc : clientOf s = some (.ready token) := by simp [clientOf, hcell, hl]
    exact h.goes (c := .reading i token t.path false) rfl (by simp [clientOf, State.goto, State.log, hcell])
      (hear_snoc (h.client hc) (by simp [Client.step]))
      (keep_lock _ (Or.inr hl) hcell) rfl (fun token hk => ⟨token, hk⟩) nofun
  | @denies i t why ht hpc hl =>
    obtain ⟨hlock, token, hcell⟩ := h.connected ht (by rw [hpc]; rfl)
    have hc : clientOf s = some (.reading i token t.path false) := by simp [clientOf, hcell, hlock, ht, hpc]
    exact h.steps (c := .denied i token t.path) rfl rfl rfl (by simp [clientOf, State.goto, State.log, hcell, hlock])
      (hear_snoc (h.client hc) (by simp [Client.step, hl])) hlock nofun
  | @hears i t again reply pc ht hpc hr hp =>
    obtain ⟨hlock, token, hcell⟩ := h.connected ht (by rw [hpc]; rfl)
    have hc : clientOf s = some (.reading i token t.path again) := by simp [clientOf, hcell, hlock, ht, hpc]
    have hstep : Client.step login (.reading i token t.path again) (.replied i t.path reply s.now) =
        some (.ready token) := by
      cases reply with
      | denied why => simp [Client.step, hr why rfl]
      | data | failed => simp [Client.step]
    have hpl : pc.place = .outside ∧ pc ≠ .wanting := by
      rcases hp with ⟨_, _, -, -, rfl⟩ | hp
      · exact ⟨rfl, nofun⟩
      · exact ⟨hp.place, place_of_ends hp⟩
    exact h.goes (c := .ready token) rfl (by simp [clientOf, State.goto, State.log, State.giveBack, hcell])
      (hear_snoc (h.client hc) hstep) (keep_lock _ (Or.inl hlock) hcell)
      (hpl.1.symm ▸ trivial) (fun token hk => ⟨token, hk⟩) fun he => absurd he hpl.2
  | waits => exact ⟨⟨c, hc, hh⟩, h.holds, h.wants⟩

/-! ## Nobody is stuck -/

/-- Whoever is to connect, or to log in, has what it takes. -/
def Able (x : Secrets) (login : Option VaultLogin) (s : State) : Prop :=
  ∀ i t, s.tasks i = some t → (t.pc = .connecting → x.vaultCfg.isSome = true) ∧
    ∀ first, t.pc = .applying first → login.isSome = true

theorem Able.goto (h : Able x login s) {s₁ : State} {pc : Pc} (htasks : s₁.tasks = s.tasks)
    (hc : pc = .connecting → x.vaultCfg.isSome = true) (ha : ∀ first, pc = .applying first → login.isSome = true) :
    Able x login (s₁.goto i t pc) := by
  intro j u hj
  by_cases hji : j = i
  · subst hji
    obtain rfl : { t with pc := pc } = u := by simpa [State.goto] using hj
    exact ⟨hc, ha⟩
  · exact h j u (by simpa [State.goto, hji, htasks] using hj)

@[simp] theorem State.giveBack_tasks (s : State) (first : Bool) : (s.giveBack first).tasks = s.tasks := by
  cases first <;> rfl

theorem able_move (h : Able x login s) (hm : Moves x login s s') : Able x login s' := by
  cases hm with
  | stays | waits => exact h
  | opens _ _ hx _ => exact h.goto rfl (fun _ => hx) nofun
  | prepares _ _ hl => exact h.goto rfl nofun fun _ _ => hl
  | denies _ _ hl => exact h.goto rfl nofun fun _ _ => hl
  | goes _ _ hn =>
    rcases hn with rfl | ⟨r, rfl⟩ | rfl <;> exact h.goto rfl nofun nofun
  | breaks _ hp _ =>
    rcases hp with ⟨r, rfl⟩ | rfl <;> exact h.goto (State.giveBack_tasks _ _) nofun nofun
  | hears _ _ _ hp =>
    rcases hp with ⟨_, _, -, -, rfl⟩ | ⟨r, rfl⟩ | rfl <;> exact h.goto (State.giveBack_tasks _ _) nofun nofun
  | fails => exact h.goto (State.giveBack_tasks _ _) nofun nofun
  | begins | joins | finds | stores | connects | asks | enters | renews | takes => exact h.goto rfl nofun nofun

/-- The code goes on, or what it waits for comes. -/
def Label.goesOn : Label → Bool
  | .run _ | .build .. | .apply .. | .land .. | .answer .. => true
  | .call .. | .cancel _ | .wait _ => false

def GoesOn (x : Secrets) (env : String → Option String) (s : State) : Prop :=
  ∃ l, l.goesOn = true ∧ (State.step x env s l).isSome = true

/-- Whatever comes, who holds the cell or the client goes on. -/
theorem goesOn_of_holding (h : Able x (x.login env) s) (ht : s.tasks i = some t) (hp : t.pc.place ≠ .outside) :
    GoesOn x env s := by
  obtain ⟨hx, hl⟩ := h i t ht
  cases hpc : t.pc with
  | looking | missed | wanting | storing | done | dropped =>
    rw [hpc] at hp
    exact absurd rfl hp
  | connecting =>
    obtain ⟨cfg, hcfg⟩ := Option.isSome_iff_exists.mp (hx hpc)
    refine ⟨.build i fun _ => .error "", rfl, ?_⟩
    rw [State.step, ht, Option.bind_some, State.build, hpc, hcfg]
    dsimp only
    split
    · rfl
    · rfl
    · split <;> rfl
  | applying first =>
    obtain ⟨login, hlogin⟩ := Option.isSome_iff_exists.mp (hl first hpc)
    refine ⟨.apply i none, rfl, ?_⟩
    simp only [State.step, ht, Option.bind_some, State.apply, hpc, hlogin]
    split <;> rfl
  | loggingIn first =>
    refine ⟨.land i (.error ""), rfl, ?_⟩
    cases first <;> simp only [State.step, ht, Option.bind_some, State.land, hpc, Option.isSome_some]
  | reading again =>
    refine ⟨.answer i (.failed ""), rfl, ?_⟩
    rw [State.step, ht, Option.bind_some, State.answer, hpc]
    rfl

theorem holder_of_busy {c : Client} {j : Nat} (hc : clientOf s = some c)
    (hb : s.cell = .opening j ∧ s.lock = none ∨ ∃ token, s.cell = .connected token ∧ s.lock = some j) :
    ∃ u, s.tasks j = some u ∧ u.pc.place ≠ .outside := by
  by_contra hnone
  -- a holder without anything could be dropped, and the client would be as before
  have hd : clientOf (s.goto j ⟨"", "", "", .dropped⟩ .dropped) = some c := clientOf_goto hc fun u hu => by
    by_contra hp
    exact hnone ⟨u, hu, hp⟩
  rcases hb with ⟨hcell, hl⟩ | ⟨token, hcell, hl⟩ <;> simp [clientOf, State.goto, hcell, hl] at hd

/-- As long as a caller is not through, someone goes on. -/
theorem goesOn_of_caller (h : Single login s) (ha : Able x (x.login env) s) (ht : s.tasks i = some t)
    (hn : ¬t.pc.Ends) : GoesOn x env s := by
  obtain ⟨c, hc, -⟩ := h.heard
  have hrun : (s.run x i t).isSome = true → GoesOn x env s := fun hr =>
    ⟨.run i, rfl, by rwa [State.step, ht, Option.bind_some]⟩
  cases hpc : t.pc with
  | done r => exact absurd (Or.inl ⟨r, hpc⟩) hn
  | dropped => exact absurd (Or.inr hpc) hn
  | looking =>
    refine hrun ?_
    rw [State.run, hpc]
    dsimp only
    split <;> rfl
  | storing value =>
    refine hrun ?_
    rw [State.run, hpc]
    rfl
  | missed =>
    cases hcell : s.cell with
    | opening j =>
      obtain ⟨u, hu, hp⟩ := holder_of_busy hc (Or.inl ⟨hcell, lock_of_opening hc hcell⟩)
      exact goesOn_of_holding ha hu hp
    | empty | connected =>
      refine hrun ?_
      rw [State.run, hpc, hcell]
      cases x.vaultCfg <;> rfl
  | wanting =>
    obtain ⟨token, hcell⟩ := h.wants i t ht hpc
    cases hl : s.lock with
    | none =>
      refine hrun ?_
      rw [State.run, hpc, hcell, hl]
      rfl
    | some j =>
      obtain ⟨u, hu, hp⟩ := holder_of_busy hc (Or.inr ⟨token, hcell, hl⟩)
      exact goesOn_of_holding ha hu hp
  | connecting | reading =>
    refine goesOn_of_holding ha ht ?_
    rw [hpc]
    nofun
  | applying first | loggingIn first =>
    refine goesOn_of_holding ha ht ?_
    rw [hpc]
    cases first <;> nofun

/-! ## How often it logs in -/

def Event.isGranted : Event → Bool
  | .granted .. => true
  | _ => false

def Event.isDenied : Event → Bool
  | .replied _ _ (.denied _) _ => true
  | _ => false

/-- The logins that the client can still be given without another denied read. -/
def Client.owed : Client → Nat
  | .offline | .opening _ | .denied .. | .renewing .. => 1
  | .ready _ | .reading .. | .renewed .. => 0

theorem owed_step {c c' : Client} {e : Event} (h : c.step login e = some c') :
    e.isGranted.toNat + c'.owed ≤ c.owed + e.isDenied.toNat := by
  unfold Client.step at h
  split at h
  case h_7 =>
    split at h
    · split at h
      · obtain rfl := Option.some.inj h
        split <;> simp [Client.owed, Event.isGranted, Event.isDenied]
      · obtain rfl := Option.some.inj h
        simp [Client.owed, Event.isGranted]
    · cases h
  all_goals first
    | cases h
    | (obtain ⟨-, h⟩ := Option.ite_none_right_eq_some.mp h
       obtain rfl := Option.some.inj h
       simp [Client.owed, Event.isGranted])

/-- The client logs in once, and once more for a denied read at most. -/
theorem logins_le {c c' : Client} {es : List Event} (h : Client.hear login c es = some c') :
    es.countP Event.isGranted + c'.owed ≤ c.owed + es.countP Event.isDenied := by
  induction es generalizing c with
  | nil =>
    obtain rfl := Option.some.inj h
    simp
  | cons e es ih =>
    rw [Client.hear, List.foldlM_cons] at h
    obtain ⟨c₁, h₁, h⟩ := Option.bind_eq_some_iff.mp h
    have hstep := owed_step h₁
    have := ih h
    rw [List.countP_cons, List.countP_cons]
    cases hg : e.isGranted <;> cases hd : e.isDenied <;> simp [hg, hd] at hstep ⊢ <;> omega

/-! ## Where the values come from -/

/-- The value is the field of what Vault answered, by `t`, on a read of the reference's own path. -/
def ReadFor (x : Secrets) (es : List Event) (arg value : String) (t : Nat) : Prop :=
  ∃ path field data i t₀, cut arg = some (path, field) ∧ fieldOf x.mount path data field = .ok value ∧
    .replied i path (.data data) t₀ ∈ es ∧ t₀ ≤ t

theorem ReadFor.mono {es : List Event} {arg value : String} {n m : Nat} (h : ReadFor x es arg value n)
    (hnm : n ≤ m) (es' : List Event) : ReadFor x (es ++ es') arg value m := by
  obtain ⟨path, field, data, i, t₀, hcut, hf, hm, ht⟩ := h
  exact ⟨path, field, data, i, t₀, hcut, hf, List.mem_append_left _ hm, Nat.le_trans ht hnm⟩

/-- A value that was given out was read, and was in the cache for less than its time or came just now. -/
def Answer.Right (x : Secrets) (es : List Event) (a : Answer) : Prop :=
  ReadFor x es a.arg a.value a.stored ∧ a.stored ≤ a.t ∧ (a.t = a.stored ∨ a.t < a.stored + x.ttl)

structure Sourced (x : Secrets) (s : State) : Prop where
  cut : ∀ i t, s.tasks i = some t → cut t.arg = some (t.path, t.field)
  cached : ∀ arg stored value, s.cache (key arg) = some (stored, value) →
    stored ≤ s.now ∧ ReadFor x s.history arg value stored
  storing : ∀ i t value, s.tasks i = some t → t.pc = .storing value → ReadFor x s.history t.arg value s.now
  right : ∀ a ∈ s.answers, a.Right x s.history

/-- More is known of Vault, and the cell and the lock change. -/
theorem Sourced.more (h : Sourced x s) {s₁ : State} (es : List Event) (htasks : s₁.tasks = s.tasks)
    (hcache : s₁.cache = s.cache) (hnow : s₁.now = s.now) (hans : s₁.answers = s.answers)
    (hhist : s₁.history = s.history ++ es) : Sourced x s₁ where
  cut := htasks ▸ h.cut
  cached arg stored value hc := by
    obtain ⟨hle, hr⟩ := h.cached arg stored value (hcache ▸ hc)
    exact ⟨hnow ▸ hle, hhist ▸ hr.mono (Nat.le_refl _) es⟩
  storing i t value ht hpc :=
    hhist ▸ (h.storing i t value (htasks ▸ ht) hpc).mono (Nat.le_of_eq hnow.symm) es
  right a ha := by
    obtain ⟨hr, hrest⟩ := h.right a (hans ▸ ha)
    exact ⟨hhist ▸ hr.mono (Nat.le_refl _) es, hrest⟩

theorem Sourced.goto (h : Sourced x s) {pc : Pc} (hcut : VaultReads.cut t.arg = some (t.path, t.field))
    (hv : ∀ value, pc = .storing value → ReadFor x s.history t.arg value s.now) : Sourced x (s.goto i t pc) where
  cut j u hj := by
    by_cases hji : j = i
    · subst hji
      obtain rfl : { t with pc := pc } = u := by simpa [State.goto] using hj
      exact hcut
    · exact h.cut j u (by simpa [State.goto, hji] using hj)
  cached := h.cached
  storing j u value hj hu := by
    by_cases hji : j = i
    · subst hji
      obtain rfl : { t with pc := pc } = u := by simpa [State.goto] using hj
      exact hv value hu
    · exact h.storing j u value (by simpa [State.goto, hji] using hj) hu
  right := h.right

theorem Sourced.goes (h : Sourced x s) {s₁ : State} {pc : Pc} (es : List Event) (htasks : s₁.tasks = s.tasks)
    (hcache : s₁.cache = s.cache) (hnow : s₁.now = s.now) (hans : s₁.answers = s.answers)
    (hhist : s₁.history = s.history ++ es) (ht : s.tasks i = some t)
    (hv : ∀ value, pc = .storing value → ReadFor x s₁.history t.arg value s₁.now) : Sourced x (s₁.goto i t pc) :=
  (h.more es htasks hcache hnow hans hhist).goto (h.cut i t ht) hv

theorem Sourced.give (h : Sourced x s) {value : String} {stored : Nat}
    (hr : Answer.Right x s.history ⟨t.arg, value, stored, s.now⟩) : Sourced x (s.give t value stored) where
  cut := h.cut
  cached := h.cached
  storing := h.storing
  right a ha := by
    rcases List.mem_append.mp ha with ha | ha
    · exact h.right a ha
    · rw [List.mem_singleton.mp ha]
      exact hr

/-- What was read goes into the cache under its reference. -/
theorem Sourced.store (h : Sourced x s) {arg value : String} (hr : ReadFor x s.history arg value s.now) :
    Sourced x { s with cache := Function.update s.cache (key arg) (some (s.now, value)) } where
  cut := h.cut
  cached arg' stored value' hc := by
    by_cases hk : key arg' = key arg
    · obtain rfl := key_inj hk
      obtain ⟨rfl, rfl⟩ : s.now = stored ∧ value = value' := by simpa using hc
      exact ⟨Nat.le_refl _, hr⟩
    · exact h.cached arg' stored value' (by simpa [hk] using hc)
  storing := h.storing
  right := h.right

theorem ends_ne_storing {pc : Pc} {value : String} (h : pc.Ends) : pc ≠ .storing value := by
  rcases h with ⟨r, rfl⟩ | rfl <;> nofun

theorem sourced_move (h : Sourced x s) (hm : Moves x login s s') : Sourced x s' := by
  cases hm with
  | stays => exact h
  | begins _ hc => exact h.goto hc nofun
  | goes ht _ hn =>
    refine h.goto (h.cut _ _ ht) fun value he => ?_
    rcases hn with rfl | hn
    · cases he
    · exact absurd he (ends_ne_storing hn)
  | joins ht | prepares ht => exact h.goto (h.cut _ _ ht) nofun
  | finds ht hpc hc =>
    obtain ⟨hc, hlt⟩ := Option.filter_eq_some_iff.mp hc
    obtain ⟨hle, hr⟩ := h.cached _ _ _ hc
    refine (h.give ⟨hr, hle, Or.inr ?_⟩).goto (h.cut _ _ ht) nofun
    have := of_decide_eq_true hlt
    dsimp only at this ⊢
    omega
  | stores ht hpc =>
    have hr := h.storing _ _ _ ht hpc
    exact ((h.store hr).give ⟨hr, Nat.le_refl _, Or.inl rfl⟩).goto (h.cut _ _ ht) nofun
  | opens ht | fails ht => exact h.goes [] rfl rfl rfl rfl (List.append_nil _).symm ht nofun
  | connects ht | asks ht | enters ht | takes ht | denies ht => exact h.goes [_] rfl rfl rfl rfl rfl ht nofun
  | renews ht => exact h.goes [_, _] rfl rfl rfl rfl (List.append_assoc _ [_] [_]) ht nofun
  | @breaks i t first e pc ht hp _ =>
    have hv : ∀ value, pc = .storing value → ReadFor x ((s.giveBack first).log e).history t.arg value
        ((s.giveBack first).log e).now := fun value he => absurd he (ends_ne_storing hp)
    cases first <;> exact h.goes [e] rfl rfl rfl rfl rfl ht hv
  | @hears i t again reply pc ht _ _ hp =>
    refine h.goes [_] rfl rfl rfl rfl rfl ht fun value he => ?_
    rcases hp with ⟨data, value', rfl, hf, rfl⟩ | hp
    · obtain rfl := Pc.storing.inj he
      exact ⟨t.path, t.field, data, i, s.now, h.cut _ _ ht, hf, by simp [State.log, State.giveBack], Nat.le_refl _⟩
    · exact absurd he (ends_ne_storing hp)
  | @waits ns =>
    refine ⟨h.cut, fun arg stored value hc => ?_, fun i t value ht hpc => ?_, h.right⟩
    · obtain ⟨hle, hr⟩ := h.cached arg stored value hc
      exact ⟨Nat.le_add_right_of_le hle, hr⟩
    · have := (h.storing i t value ht hpc).mono (Nat.le_add_right s.now ns) []
      rwa [List.append_nil] at this

theorem kept (hr : (reads x env).Reachable s) :
    Single (x.login env) s ∧ Able x (x.login env) s ∧ Sourced x s := by
  refine LTS.Invariant.reachable (P := fun s => Single (x.login env) s ∧ Able x (x.login env) s ∧ Sourced x s)
    ⟨fun s₀ h₀ => ?_, ?_⟩ hr
  · obtain ⟨now, rfl⟩ := h₀
    exact ⟨⟨⟨.offline, rfl, rfl⟩, nofun, nofun⟩, nofun, ⟨nofun, nofun, nofun, nofun⟩⟩
  · intro t l t' ⟨h, ha, hs⟩ _ hstep
    have hm := moves_of_step hstep
    exact ⟨single_move h hm, able_move ha hm, sourced_move hs hm⟩

/-- However callers interleave and give up: Vault hears one client, which connects once and then sends
one request at a time, each read with the token it was last given and a new login only behind a read
that was denied; it is granted one login more than it has reads denied, at most; as long as a caller is
not through, someone goes on; and every value that a caller gets is its own reference's, as Vault answered it. -/
theorem vault_reads_kept (x : Secrets) (env : String → Option String) {s : State}
    (hr : (reads x env).Reachable s) :
    (∃ c, Client.hear (x.login env) .offline s.history = some c) ∧
      s.history.countP Event.isGranted ≤ s.history.countP Event.isDenied + 1 ∧
      (∀ i t, s.tasks i = some t → ¬t.pc.Ends → GoesOn x env s) ∧
      ∀ a ∈ s.answers, a.Right x s.history := by
  obtain ⟨h, ha, hs⟩ := kept hr
  obtain ⟨c, -, hh⟩ := h.heard
  refine ⟨⟨c, hh⟩, ?_, fun i t ht hn => goesOn_of_caller h ha ht hn, hs.right⟩
  have := logins_le hh
  rw [show Client.offline.owed = 1 from rfl] at this
  omega

end Steps

def pod : Secrets := ⟨some ⟨"secret", none, none, some ⟨"app", "/jwt", "kubernetes"⟩⟩, 300⟩

/-- The first caller connects for both; its read is denied, and it logs in again; the second one, who
waited for the client, reads with the new token, and a third one finds what the first one stored. -/
def expired : List Label :=
  [.call 0 "db#password", .call 1 "db#user", .run 0, .run 1, .run 0, .build 0 (fun _ => .ok ""),
    .apply 0 (some "jwt-1"), .land 0 (.ok "tok-1"), .run 1, .run 0, .answer 0 (.denied "expired"),
    .apply 0 (some "jwt-2"), .land 0 (.ok "tok-2"),
    .answer 0 (.data [("user", .str "app"), ("password", .str "s3cret")]), .wait 5, .run 0, .run 1,
    .answer 1 (.data [("user", .str "app"), ("password", .str "s3cret")]), .run 1, .wait 100,
    .call 2 "db#password", .run 2]

theorem expired_kept : ∃ s, (reads pod fun _ => none).exec (.initial 0) expired = some s ∧
    s.answers = [⟨"db#password", "s3cret", 5, 5⟩, ⟨"db#user", "app", 5, 5⟩, ⟨"db#password", "s3cret", 5, 105⟩] ∧
    s.history.countP Event.isGranted = 2 ∧
    (∃ c, Client.hear (pod.login fun _ => none) .offline s.history = some c) ∧
    s.history.countP Event.isGranted ≤ s.history.countP Event.isDenied + 1 ∧
    (∀ i t, s.tasks i = some t → ¬t.pc.Ends → GoesOn pod (fun _ => none) s) ∧
    ∀ a ∈ s.answers, a.Right pod s.history := by
  have hr : ((reads pod fun _ => none).exec (.initial 0) expired).any (fun s =>
      s.answers = [⟨"db#password", "s3cret", 5, 5⟩, ⟨"db#user", "app", 5, 5⟩, ⟨"db#password", "s3cret", 5, 105⟩] ∧
      s.history.countP Event.isGranted = 2) = true := by
    decide +kernel
  obtain ⟨s, he, hs⟩ := (Option.any_eq_true _ _).mp hr
  obtain ⟨ha, hg⟩ := of_decide_eq_true hs
  exact ⟨s, he, ha, hg, vault_reads_kept pod _ ⟨_, _, ⟨_, rfl⟩, he⟩⟩

end MinMcp.L5.VaultReads
