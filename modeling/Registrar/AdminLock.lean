import Registrar.Metadata
import Registrar.Library.Runs

/-! # The maintenance lock of the admin server

    `#handle` tests a boolean once, then runs the request; a DELETE sets it at
    once and releases it in a `finally`.  A handler is suspended at each `await`:
    in `readJson`, in a call of the admin API, in the quiesce hook.  `step` lets a
    request arrive or resumes a suspended one; what the database answers it is a
    parameter of the step.

    A body that is read after the test is acted on without another one
    (`deletion_disturbed`).  A purge that commits and whose reply is
    lost looks to the handler like one that did not commit. -/

namespace RegistrarAdmin

open Runs RegistrarMetadata

/-! ## Requests -/

inductive Method
  | get
  | post
  | patch
  | delete
  | other
  deriving DecidableEq

/-- The dashboard, `/admin/issuances` with the segment of its id, or another
    path.  The session endpoints, which never meet the lock, are left out. -/
inductive Path
  | dashboard
  | issuances (id : Option String)
  | elsewhere
  deriving DecidableEq

structure Request where
  method : Method
  path : Path
  authorized : Bool
  deriving DecidableEq

/-- The fields of a JSON body a handler reads. -/
structure Body where
  kind : Option String := none
  mptIssuanceId : Option String := none
  currency : Option String := none
  issuer : Option String := none
  backfillFromLedger : Option ℕ := none
  enabled : Option Bool := none
  deriving DecidableEq

structure Answer where
  status : ℕ
  error : Option String := none
  message : Option String := none
  deriving DecidableEq

def unauthorized : Answer := { status := 401, error := some "unauthorized" }
def notFound : Answer := { status := 404, error := some "notFound" }
def methodNotAllowed : Answer := { status := 405, error := some "methodNotAllowed" }
def badRequest : Answer := { status := 400, error := some "badRequest" }

def invalidParams (message : String) : Answer :=
  { status := 400, error := some "invalidParams", message := some message }

def maintenanceInProgress : Answer where
  status := 409
  error := some "maintenanceInProgress"
  message := some "an issuance deletion is in progress; retry shortly"

/-! ## Registering -/

/-- The white space `trim` removes. -/
def isSpace (c : Char) : Bool :=
  c.toNat ∈ [0x09, 0x0a, 0x0b, 0x0c, 0x0d, 0x20, 0xa0, 0x1680, 0x2028, 0x2029, 0x202f,
    0x205f, 0x3000, 0xfeff] || (0x2000 ≤ c.toNat && c.toNat ≤ 0x200a)

def trim (s : String) : String :=
  String.ofList
    ((s.toList.dropWhile isSpace).reverse.dropWhile isSpace).reverse

theorem trim_eq {s : String} (h : ∀ c ∈ s.toList, isSpace c = false) : trim s = s := by
  have hdrop : ∀ l : List Char, (∀ c ∈ l, isSpace c = false) → l.dropWhile isSpace = l := by
    intro l hl
    cases l with
    | nil => rfl
    | cons c l =>
        refine List.dropWhile_cons_of_neg ?_
        rw [hl c List.mem_cons_self]
        exact Bool.false_ne_true
  unfold trim
  rw [hdrop s.toList h, hdrop s.toList.reverse (fun c hc => h c (List.mem_reverse.mp hc)),
    List.reverse_reverse, String.ofList_toList]

theorem isSpace_printable {c : Char} (hlo : 32 < c.toNat) (hhi : c.toNat < 128) :
    isSpace c = false := by
  have hsmall : ∀ k < 128, 32 < k → isSpace (Char.ofNat k) = false := by
    decide +kernel
  have := hsmall c.toNat hhi hlo
  rwa [Char.ofNat_toNat] at this

/-- The readable code of an operator-supplied currency, or why it is refused. -/
def normalizeCurrency (input : String) : Except String String :=
  let code := currencyToString (trim input)
  if code = "" then .error "currency is required"
  else if code = "XRP" then .error "XRP is not an issuable IOU currency"
  else if codeUnits code > 20 then
    .error s!"currency '{code}' is not a valid currency code (max 20 characters)"
  else .ok code

/-- The row `registerIssuance` asks the repository to create. -/
structure NewIssuance where
  kind : Kind
  mptIssuanceId : Option String := none
  currency : Option String := none
  issuerAccount : Option String := none
  backfillFromLedger : ℕ
  deriving DecidableEq

/-- `registerIssuance` up to its insert; an error is a tagged input error. -/
def registerIssuance (input : Body) : Except String NewIssuance :=
  if input.kind = some "mpt" then
    .ok { kind := .mpt, mptIssuanceId := input.mptIssuanceId
          backfillFromLedger := input.backfillFromLedger.getD 0 }
  else
    match input.currency with
    | none => .error "Cannot read properties of undefined (reading 'trim')"
    | some currency =>
        (normalizeCurrency currency).map fun code =>
          { kind := .iou, currency := some code, issuerAccount := input.issuer
            backfillFromLedger := input.backfillFromLedger.getD 0 }

/-! ## The server -/

/-- What a body is read for. -/
inductive Route
  | register
  | toggle (id : String)
  deriving DecidableEq

/-- The `await` a handler is suspended at, or its answer. -/
inductive Phase
  | fetching
  | reading (route : Route)
  /-- In `registerIssuance`. -/
  | registering (issuance : Except String NewIssuance)
  /-- In `setEnabled`, which looks the issuance up and then updates it. -/
  | toggling (id : String) (enabled : Bool)
  | updating (id : String) (enabled : Bool)
  /-- In `onBeforeDelete`. -/
  | quiescing (id : String)
  /-- In `deleteIssuance`: its two reads, its transaction, its `VACUUM`s. -/
  | lookingUp (id : String)
  | listing (id : String)
  | purging (id : String)
  | vacuuming (id : String) (statements : List String)
  | answered (answer : Answer)

inductive Hook
  | registered
  | beforeDelete
  | deleted
  | deleteAborted
  deriving DecidableEq

/-- The lock and the requests by the order they arrived in.  `hooks` records the
    calls of the hooks, `purges` the requests whose purge committed and was told so,
    and `lost` those whose purge committed and was not. -/
structure Server where
  maintenance : Bool := false
  requests : List Phase := []
  hooks : List (ℕ × Hook) := []
  purges : List ℕ := []
  lost : List ℕ := []

inductive Engine
  | pglite
  | postgres
  deriving DecidableEq

/-- How an awaited call ends: it succeeds, finds no such issuance, or throws, with
    its statement executed where only the reply is `lost`. -/
inductive Outcome
  | ok
  | missing
  | failed
  | lost
  deriving DecidableEq

/-- A body is `none` when `readJson` rejects it, or it is no object. -/
inductive Action
  | arrive (req : Request)
  | body (request : ℕ) (json : Option Body)
  | resume (request : ℕ) (outcome : Outcome)

def Method.mutating : Method → Bool
  | .post | .patch | .delete => true
  | _ => false

/-- `#handle` up to its first `await`. -/
def route (maintenance : Bool) (req : Request) : Phase :=
  if req.method = .get ∧ req.path = .dashboard then .answered { status := 200 }
  else if req.authorized = false then .answered unauthorized
  else
    match req.path with
    | .issuances id =>
        if req.method.mutating && maintenance then .answered maintenanceInProgress
        else
          match req.method, id with
          | .get, _ => .fetching
          | .post, none => .reading .register
          | .patch, some id => .reading (.toggle id)
          | .delete, some id => .quiescing id
          | _, _ => .answered methodNotAllowed
    | _ => .answered notFound

/-- A request arrives; a DELETE that is let through takes the lock. -/
def arrive (s : Server) (req : Request) : Server :=
  match route s.maintenance req with
  | .quiescing id =>
      { s with
        maintenance := true
        requests := s.requests ++ [.quiescing id]
        hooks := s.hooks ++ [(s.requests.length, .beforeDelete)] }
  | p => { s with requests := s.requests ++ [p] }

/-- The body has been read: call the API, or answer. -/
def readBody (route : Route) (json : Option Body) : Phase :=
  match route, json with
  | _, none => .answered badRequest
  | .register, some body => .registering (registerIssuance body)
  | .toggle id, some body =>
      match body.enabled with
      | none => .answered (invalidParams "'enabled' boolean required")
      | some enabled => .toggling id enabled

/-- The statements `#compact` tries. -/
def compactStatements : Engine → List String
  | .postgres => ["VACUUM"]
  | .pglite => ["VACUUM (FULL)", "VACUUM"]

def Server.move (s : Server) (r : ℕ) (p : Phase) : Server :=
  { s with requests := s.requests.set r p }

/-- Leave the `try` of a DELETE through its `finally`. -/
def Server.finish (s : Server) (r : ℕ) (purged : Bool) (answer : Answer) : Server :=
  { s.move r (.answered answer) with
    maintenance := false
    hooks := s.hooks ++ [(r, if purged then .deleted else .deleteAborted)] }

/-- Resume a handler with the outcome of the call it awaits. -/
def resume (engine : Engine) (s : Server) (r : ℕ) : Phase → Outcome → Option Server
  | .fetching, .ok => some (s.move r (.answered { status := 200 }))
  | .fetching, .missing => some (s.move r (.answered notFound))
  | .fetching, _ => some (s.move r (.answered badRequest))
  | .registering (.error message), _ =>
      some (s.move r (.answered (invalidParams message)))
  | .registering (.ok _), .ok =>
      some
        { s.move r (.answered { status := 201 }) with
          hooks := s.hooks ++ [(r, .registered)] }
  | .registering (.ok _), _ => some (s.move r (.answered badRequest))
  | .toggling id enabled, .ok => some (s.move r (.updating id enabled))
  | .toggling _ _, .missing => some (s.move r (.answered notFound))
  | .toggling _ _, _ => some (s.move r (.answered badRequest))
  | .updating _ _, .ok => some (s.move r (.answered { status := 200 }))
  | .updating _ _, _ => some (s.move r (.answered badRequest))
  | .quiescing id, .ok => some (s.move r (.lookingUp id))
  | .quiescing _, _ => some (s.finish r false badRequest)
  | .lookingUp id, .ok => some (s.move r (.listing id))
  | .lookingUp _, .missing => some (s.finish r false notFound)
  | .lookingUp _, _ => some (s.finish r false badRequest)
  | .listing id, .ok => some (s.move r (.purging id))
  | .listing _, _ => some (s.finish r false badRequest)
  | .purging id, .ok =>
      some
        { s.move r (.vacuuming id (compactStatements engine)) with
          purges := s.purges ++ [r] }
  | .purging _, .lost =>
      -- `deleteIssuance` throws, so `purged` stays false
      some { s.finish r false badRequest with lost := s.lost ++ [r] }
  | .purging _, _ => some (s.finish r false badRequest)
  | .vacuuming id (_ :: next :: rest), .missing
  | .vacuuming id (_ :: next :: rest), .failed
  | .vacuuming id (_ :: next :: rest), .lost =>
      -- try the next form
      some (s.move r (.vacuuming id (next :: rest)))
  | .vacuuming _ _, _ => some (s.finish r true { status := 200 })
  | _, _ => none

def step (engine : Engine) (s : Server) : Action → Option Server
  | .arrive req => some (arrive s req)
  | .body r json =>
      match s.requests[r]? with
      | some (.reading route) => some (s.move r (readBody route json))
      | _ => none
  | .resume r outcome => (s.requests[r]?).bind (resume engine s r · outcome)

/-! ## What is asked of it -/

/-- From the quiesce step of a DELETE until its `VACUUM` has finished. -/
def Phase.inPeriod : Phase → Bool
  | .quiescing _ | .lookingUp _ | .listing _ | .purging _ | .vacuuming _ _ => true
  | _ => false

/-- A registration or a toggle is under way. -/
def Phase.mutates : Phase → Bool
  | .registering _ | .toggling _ _ | .updating _ _ => true
  | _ => false

/-- Request `r` is a DELETE in its period. -/
def InPeriod (s : Server) (r : ℕ) : Prop :=
  s.requests[r]?.map Phase.inPeriod = some true

instance (s : Server) (r : ℕ) : Decidable (InPeriod s r) :=
  inferInstanceAs (Decidable (_ = _))

/-- Request `r` is in a registration or a toggle. -/
def Mutates (s : Server) (r : ℕ) : Prop :=
  s.requests[r]?.map Phase.mutates = some true

instance (s : Server) (r : ℕ) : Decidable (Mutates s r) :=
  inferInstanceAs (Decidable (_ = _))

/-- No other registration, toggle or deletion runs in the period of a DELETE. -/
def Exclusive (s : Server) : Prop :=
  ∀ r r', InPeriod s r → InPeriod s r' ∨ Mutates s r' → r = r'

/-- The lock is held exactly in the period of a DELETE. -/
def LockExact (s : Server) : Prop := s.maintenance = true ↔ ∃ r, InPeriod s r

/-- A mutating request that arrives in the period of a DELETE is answered 409. -/
def Rejects (s : Server) : Prop :=
  ∀ req id, (∃ r, InPeriod s r) → req.path = .issuances id → req.authorized = true →
    req.method.mutating = true →
      (arrive s req).requests = s.requests ++ [.answered maintenanceInProgress]
        ∧ maintenanceInProgress.status = 409

/-- A DELETE whose period is over has called `onDeleted` once if it is one of
    `deleted`, else `onDeleteAborted` once. -/
def HooksSay (s : Server) (deleted : List ℕ) : Prop :=
  ∀ r, s.hooks.count (r, .deleted)
      = (if r ∈ deleted ∧ ¬ InPeriod s r then 1 else 0)
    ∧ s.hooks.count (r, .deleteAborted)
      = (if (r, .beforeDelete) ∈ s.hooks ∧ r ∉ deleted ∧ ¬ InPeriod s r then 1 else 0)

/-- The requests whose purge committed. -/
def Server.committed (s : Server) : List ℕ := s.purges ++ s.lost

/-- The hooks say which purges committed. -/
def HooksExact (s : Server) : Prop := HooksSay s s.committed

/-- The calls a DELETE in its period still awaits, at most. -/
def Phase.awaits : Phase → ℕ
  | .quiescing _ => 6
  | .lookingUp _ => 5
  | .listing _ => 4
  | .purging _ => 3
  | .vacuuming _ statements => max 1 statements.length
  | _ => 0

/-- Whatever the call it awaits answers, a DELETE in its period is one call
    nearer to releasing the lock. -/
def Releases (engine : Engine) (s : Server) : Prop :=
  ∀ r p outcome, s.requests[r]? = some p → p.inPeriod = true →
    ∃ t q, step engine s (.resume r outcome) = some t ∧ t.requests[r]? = some q
      ∧ q.awaits < p.awaits ∧ (q.inPeriod = false → t.maintenance = false)

/-- The body calls the API. -/
def Starts (s : Server) (r : ℕ) (json : Option Body) : Prop :=
  (s.requests[r]?.map fun p =>
    match p with
    | .reading route => (readBody route json).mutates
    | _ => false) = some true

/-- No body that starts a registration or a toggle comes while the lock is held,
    and no DELETE is let through while one is under way. -/
def Alone (s : Server) : Action → Prop
  | .arrive req =>
      (route s.maintenance req).inPeriod = true → ∀ r < s.requests.length, ¬ Mutates s r
  | .body r json => Starts s r json → s.maintenance = false
  | .resume _ _ => True

instance (s : Server) (a : Action) : Decidable (Alone s a) :=
  match a with
  | .arrive _ => inferInstanceAs (Decidable (_ → ∀ r < s.requests.length, ¬ Mutates s r))
  | .body r _ =>
      inferInstanceAs (Decidable
        (s.requests[r]?.map _ = some true → s.maintenance = false))
  | .resume _ _ => inferInstanceAs (Decidable True)

/-- The call awaited commits a purge. -/
def Phase.commits : Phase → Bool
  | .purging _ => true
  | _ => false

/-- No purge commits with its reply lost. -/
def Told (s : Server) : Action → Prop
  | .resume r outcome => outcome = .lost → s.requests[r]?.map Phase.commits ≠ some true
  | _ => True

instance (s : Server) (a : Action) : Decidable (Told s a) :=
  match a with
  | .arrive _ => inferInstanceAs (Decidable True)
  | .body _ _ => inferInstanceAs (Decidable True)
  | .resume r outcome =>
      inferInstanceAs (Decidable
        (outcome = .lost → s.requests[r]?.map Phase.commits ≠ some true))

/-- Nothing else comes while the lock is held, and every purge that commits is told
    so. -/
def Undisturbed (s : Server) (a : Action) : Prop := Alone s a ∧ Told s a

instance (s : Server) (a : Action) : Decidable (Undisturbed s a) :=
  inferInstanceAs (Decidable (_ ∧ _))

/-! ## What a step does -/

/-- The purge of a DELETE in this phase has committed. -/
def Phase.purged : Phase → Bool
  | .vacuuming _ _ => true
  | _ => false

/-- What a step does to the lock, the hooks and the purges. -/
inductive Turn (s : Server) : Server → Prop
  | join {p : Phase} (hp : p.inPeriod = false) :
      Turn s { s with requests := s.requests ++ [p] }
  | enter (id : String) (hlock : s.maintenance = false) : Turn s
      { s with
        maintenance := true
        requests := s.requests ++ [.quiescing id]
        hooks := s.hooks ++ [(s.requests.length, .beforeDelete)] }
  | move {r : ℕ} {p q : Phase} (hr : s.requests[r]? = some p)
      (hperiod : q.inPeriod = p.inPeriod) (hpurged : q.purged = p.purged) :
      Turn s (s.move r q)
  | register {r : ℕ} {p q : Phase} (hr : s.requests[r]? = some p)
      (hperiod : q.inPeriod = p.inPeriod) (hpurged : q.purged = p.purged) :
      Turn s { s.move r q with hooks := s.hooks ++ [(r, .registered)] }
  | purge {r : ℕ} {p q : Phase} (hr : s.requests[r]? = some p) (hp : p.inPeriod = true)
      (hnot : p.purged = false) (hq : q.inPeriod = true) (hpurged : q.purged = true) :
      Turn s { s.move r q with purges := s.purges ++ [r] }
  | finish {r : ℕ} {p : Phase} (answer : Answer) (hr : s.requests[r]? = some p)
      (hp : p.inPeriod = true) : Turn s (s.finish r p.purged answer)
  | lose {r : ℕ} {p : Phase} (answer : Answer) (hr : s.requests[r]? = some p)
      (hp : p.inPeriod = true) (hnot : p.purged = false) :
      Turn s { s.finish r p.purged answer with lost := s.lost ++ [r] }

/-- Only a DELETE that is let through enters its period, and only when the lock is
    free. -/
theorem route_inPeriod {maintenance : Bool} {req : Request}
    (h : (route maintenance req).inPeriod = true) :
    maintenance = false ∧ ∃ id, route maintenance req = .quiescing id := by
  unfold route at h ⊢
  by_cases hdash : req.method = .get ∧ req.path = .dashboard
  · rw [if_pos hdash] at h
    exact nomatch h
  · rw [if_neg hdash] at h ⊢
    by_cases hauth : req.authorized = false
    · rw [if_pos hauth] at h
      exact nomatch h
    · rw [if_neg hauth] at h ⊢
      cases hpath : req.path with
      | dashboard => rw [hpath] at h; exact nomatch h
      | elsewhere => rw [hpath] at h; exact nomatch h
      | issuances id =>
          rw [hpath] at h
          simp only at h ⊢
          by_cases hlock : (req.method.mutating && maintenance) = true
          · rw [if_pos hlock] at h
            exact nomatch h
          · rw [if_neg hlock] at h ⊢
            cases hmethod : req.method with
            | get => simp only [hmethod] at h; exact nomatch h
            | other => simp only [hmethod] at h; exact nomatch h
            | post => cases id <;> simp only [hmethod] at h <;> exact nomatch h
            | patch => cases id <;> simp only [hmethod] at h <;> exact nomatch h
            | delete =>
                rw [hmethod] at hlock
                cases id with
                | none => simp only [hmethod] at h; exact nomatch h
                | some id => exact ⟨Bool.eq_false_iff.mpr hlock, id, rfl⟩

/-- A request that does not enter a period joins the others as it is. -/
theorem arrive_eq {s : Server} {req : Request}
    (h : (route s.maintenance req).inPeriod = false) :
    arrive s req = { s with requests := s.requests ++ [route s.maintenance req] } := by
  unfold arrive
  cases hroute : route s.maintenance req <;> first | rfl | (rw [hroute] at h; exact nomatch h)

theorem arrive_delete {s : Server} {req : Request} {id : String}
    (h : route s.maintenance req = .quiescing id) :
    arrive s req =
      { s with
        maintenance := true
        requests := s.requests ++ [.quiescing id]
        hooks := s.hooks ++ [(s.requests.length, .beforeDelete)] } := by
  unfold arrive
  rw [h]

theorem readBody_inPeriod (route : Route) (json : Option Body) :
    (readBody route json).inPeriod = false ∧ (readBody route json).purged = false := by
  cases json with
  | none => exact ⟨rfl, rfl⟩
  | some body =>
      cases route with
      | register => exact ⟨rfl, rfl⟩
      | toggle id =>
          simp only [readBody]
          cases body.enabled with
          | none => exact ⟨rfl, rfl⟩
          | some enabled => exact ⟨rfl, rfl⟩

theorem turn_of_resume {engine : Engine} {s t : Server} {r : ℕ} {p : Phase}
    {outcome : Outcome} (hr : s.requests[r]? = some p)
    (h : resume engine s r p outcome = some t) : Turn s t := by
  cases p with
  | fetching => cases outcome <;> cases h <;> exact .move hr rfl rfl
  | reading route => exact nomatch h
  | registering issuance =>
      cases issuance with
      | error message => cases h; exact .move hr rfl rfl
      | ok row =>
          cases outcome with
          | ok => cases h; exact .register hr rfl rfl
          | missing => cases h; exact .move hr rfl rfl
          | failed => cases h; exact .move hr rfl rfl
          | lost => cases h; exact .move hr rfl rfl
  | toggling id enabled => cases outcome <;> cases h <;> exact .move hr rfl rfl
  | updating id enabled => cases outcome <;> cases h <;> exact .move hr rfl rfl
  | quiescing id =>
      cases outcome with
      | ok => cases h; exact .move hr rfl rfl
      | missing => cases h; exact .finish badRequest hr rfl
      | failed => cases h; exact .finish badRequest hr rfl
      | lost => cases h; exact .finish badRequest hr rfl
  | lookingUp id =>
      cases outcome with
      | ok => cases h; exact .move hr rfl rfl
      | missing => cases h; exact .finish notFound hr rfl
      | failed => cases h; exact .finish badRequest hr rfl
      | lost => cases h; exact .finish badRequest hr rfl
  | listing id =>
      cases outcome with
      | ok => cases h; exact .move hr rfl rfl
      | missing => cases h; exact .finish badRequest hr rfl
      | failed => cases h; exact .finish badRequest hr rfl
      | lost => cases h; exact .finish badRequest hr rfl
  | purging id =>
      cases outcome with
      | ok => cases h; exact .purge hr rfl rfl rfl rfl
      | missing => cases h; exact .finish badRequest hr rfl
      | failed => cases h; exact .finish badRequest hr rfl
      | lost => cases h; exact .lose badRequest hr rfl rfl
  | vacuuming id statements =>
      match statements, outcome, h with
      | _ :: next :: rest, .missing, h => cases h; exact .move hr rfl rfl
      | _ :: next :: rest, .failed, h => cases h; exact .move hr rfl rfl
      | _ :: next :: rest, .lost, h => cases h; exact .move hr rfl rfl
      | _ :: next :: rest, .ok, h => cases h; exact .finish { status := 200 } hr rfl
      | [_], .ok, h => cases h; exact .finish { status := 200 } hr rfl
      | [_], .missing, h => cases h; exact .finish { status := 200 } hr rfl
      | [_], .failed, h => cases h; exact .finish { status := 200 } hr rfl
      | [_], .lost, h => cases h; exact .finish { status := 200 } hr rfl
      | [], .ok, h => cases h; exact .finish { status := 200 } hr rfl
      | [], .missing, h => cases h; exact .finish { status := 200 } hr rfl
      | [], .failed, h => cases h; exact .finish { status := 200 } hr rfl
      | [], .lost, h => cases h; exact .finish { status := 200 } hr rfl
  | answered answer => exact nomatch h

theorem turn_of_step {engine : Engine} {s t : Server} {a : Action}
    (h : step engine s a = some t) : Turn s t := by
  cases a with
  | arrive req =>
      cases Option.some.inj h
      by_cases hp : (route s.maintenance req).inPeriod = true
      · obtain ⟨hlock, id, hroute⟩ := route_inPeriod hp
        rw [arrive_delete hroute]
        exact .enter id hlock
      · rw [arrive_eq (Bool.eq_false_iff.mpr hp)]
        exact .join (Bool.eq_false_iff.mpr hp)
  | body r json =>
      cases hr : s.requests[r]? with
      | none => simp only [step, hr] at h; exact nomatch h
      | some p =>
          cases p with
          | reading route =>
              simp only [step, hr] at h
              cases Option.some.inj h
              obtain ⟨hperiod, hpurged⟩ := readBody_inPeriod route json
              exact .move hr hperiod hpurged
          | _ => simp only [step, hr] at h; exact nomatch h
  | resume r outcome =>
      obtain ⟨p, hr, h⟩ := Option.bind_eq_some_iff.mp h
      exact turn_of_resume hr h

/-! ## The lock -/

section Requests

variable {s : Server} {r : ℕ} {p : Phase}

theorem inPeriod_iff (hr : s.requests[r]? = some p) :
    InPeriod s r ↔ p.inPeriod = true := by
  unfold InPeriod
  rw [hr, Option.map_some, Option.some_inj]

theorem mutates_iff (hr : s.requests[r]? = some p) : Mutates s r ↔ p.mutates = true := by
  unfold Mutates
  rw [hr, Option.map_some, Option.some_inj]

theorem InPeriod.exists_phase (h : InPeriod s r) :
    ∃ p, s.requests[r]? = some p ∧ p.inPeriod = true :=
  Option.map_eq_some_iff.mp h

theorem InPeriod.lt (h : InPeriod s r) : r < s.requests.length := by
  obtain ⟨p, hr, -⟩ := h.exists_phase
  exact (List.getElem?_eq_some_iff.mp hr).1

/-- Only the request that moves changes its phase. -/
theorem inPeriod_move {q : Phase} (hr : s.requests[r]? = some p) {r' : ℕ} :
    InPeriod (s.move r q) r' ↔
      if r' = r then q.inPeriod = true else InPeriod s r' := by
  obtain ⟨hlt, -⟩ := List.getElem?_eq_some_iff.mp hr
  unfold InPeriod
  show ((s.requests.set r q)[r']?).map _ = _ ↔ _
  by_cases h : r' = r
  · subst h
    rw [if_pos rfl, List.getElem?_set_self hlt, Option.map_some, Option.some_inj]
  · rw [if_neg h, List.getElem?_set_ne (Ne.symm h)]

theorem mutates_move {q : Phase} (hr : s.requests[r]? = some p) {r' : ℕ} :
    Mutates (s.move r q) r' ↔ if r' = r then q.mutates = true else Mutates s r' := by
  obtain ⟨hlt, -⟩ := List.getElem?_eq_some_iff.mp hr
  unfold Mutates
  show ((s.requests.set r q)[r']?).map _ = _ ↔ _
  by_cases h : r' = r
  · subst h
    rw [if_pos rfl, List.getElem?_set_self hlt, Option.map_some, Option.some_inj]
  · rw [if_neg h, List.getElem?_set_ne (Ne.symm h)]

/-- A request that joins changes no other. -/
theorem getElem?_join {l : List Phase} {q : Phase} {r' : ℕ} :
    (l ++ [q])[r']? = if r' = l.length then some q else l[r']? := by
  by_cases h : r' = l.length
  · rw [if_pos h, h, List.getElem?_append_right le_rfl, Nat.sub_self]
    rfl
  · rw [if_neg h]
    by_cases hlt : r' < l.length
    · exact List.getElem?_append_left hlt
    · rw [List.getElem?_append_right (by omega), List.getElem?_eq_none (by simp; omega),
        List.getElem?_eq_none (by omega)]

end Requests

/-- **THE LOCK INVARIANT**: the lock is held exactly in a period, there is one
    period at a time, and the hooks called are those of the periods there were: to
    the handler a purge committed if it was told so. -/
structure Locked (s : Server) : Prop where
  lock : LockExact s
  one : ∀ r r', InPeriod s r → InPeriod s r' → r = r'
  hooks : HooksSay s s.purges
  lost : ∀ r ∈ s.lost, r < s.requests.length ∧ ¬ InPeriod s r ∧ r ∉ s.purges
  known : (∀ e ∈ s.hooks, e.1 < s.requests.length) ∧ ∀ r ∈ s.purges, r < s.requests.length
  entered : ∀ r, InPeriod s r → (r, Hook.beforeDelete) ∈ s.hooks
  purged : ∀ r p, s.requests[r]? = some p → p.inPeriod = true →
    (p.purged = true ↔ r ∈ s.purges)

section Lock

variable {s t : Server}

/-- A request that joins outside a period keeps the invariant. -/
theorem Locked.join (h : Locked s) {p : Phase} (hp : p.inPeriod = false) :
    Locked { s with requests := s.requests ++ [p] } := by
  have hperiod : ∀ r, InPeriod { s with requests := s.requests ++ [p] } r ↔
      InPeriod s r := by
    intro r
    unfold InPeriod
    show ((s.requests ++ [p])[r]?).map _ = _ ↔ _
    rw [getElem?_join]
    by_cases hr : r = s.requests.length
    · rw [if_pos hr, hr, List.getElem?_eq_none le_rfl, Option.map_some, hp]
      exact ⟨nofun, nofun⟩
    · rw [if_neg hr]
  refine ⟨?_, ?_, ?_, ?_, ?_, ?_, ?_⟩
  · exact h.lock.trans (exists_congr (fun r => (hperiod r).symm))
  · exact fun r r' hr hr' => h.one r r' ((hperiod r).mp hr) ((hperiod r').mp hr')
  · intro r
    simp only [hperiod]
    exact h.hooks r
  · intro r hr
    obtain ⟨hlt, hout, hnot⟩ := h.lost r hr
    refine ⟨?_, fun hc => hout ((hperiod r).mp hc), hnot⟩
    show r < (s.requests ++ [p]).length
    rw [List.length_append]
    exact Nat.lt_add_right _ hlt
  · show (∀ e ∈ s.hooks, e.1 < (s.requests ++ [p]).length)
      ∧ ∀ r ∈ s.purges, r < (s.requests ++ [p]).length
    rw [List.length_append]
    exact ⟨fun e he => Nat.lt_add_right _ (h.known.1 e he),
      fun r hr => Nat.lt_add_right _ (h.known.2 r hr)⟩
  · exact fun r hr => h.entered r ((hperiod r).mp hr)
  · intro r q hq hqp
    have hin := (hperiod r).mp ((inPeriod_iff hq).mpr hqp)
    have hq : (s.requests ++ [p])[r]? = some q := hq
    rw [getElem?_join, if_neg (Nat.ne_of_lt hin.lt)] at hq
    exact h.purged r q hq hqp

/-- **TAKING THE LOCK** keeps the invariant. -/
theorem Locked.enter (h : Locked s) (id : String) (hlock : s.maintenance = false) :
    Locked
      { s with
        maintenance := true
        requests := s.requests ++ [.quiescing id]
        hooks := s.hooks ++ [(s.requests.length, .beforeDelete)] } := by
  have hfree : ∀ r, ¬ InPeriod s r := by
    intro r hr
    rw [h.lock.mpr ⟨r, hr⟩] at hlock
    exact nomatch hlock
  have hperiod : ∀ r, InPeriod
      { s with
        maintenance := true
        requests := s.requests ++ [.quiescing id]
        hooks := s.hooks ++ [(s.requests.length, .beforeDelete)] } r ↔
      r = s.requests.length := by
    intro r
    unfold InPeriod
    show ((s.requests ++ [_])[r]?).map _ = _ ↔ _
    rw [getElem?_join]
    by_cases hr : r = s.requests.length
    · rw [if_pos hr]
      exact ⟨fun _ => hr, fun _ => rfl⟩
    · rw [if_neg hr]
      exact ⟨fun hc => absurd hc (hfree r), fun hc => absurd hc hr⟩
  have hnew : ∀ hook, (s.requests.length, hook) ∉ s.hooks := fun hook hmem =>
    absurd (h.known.1 _ hmem) (lt_irrefl _)
  refine ⟨⟨fun _ => ⟨_, (hperiod _).mpr rfl⟩, fun _ => rfl⟩, ?_, ?_, ?_, ?_, ?_, ?_⟩
  · exact fun r r' hr hr' => ((hperiod r).mp hr).trans ((hperiod r').mp hr').symm
  · intro r
    have hr := h.hooks r
    show (s.hooks ++ [_]).count _ = _ ∧ (s.hooks ++ [_]).count _ = _
    simp only [hperiod, hfree, not_false_eq_true, and_true] at hr ⊢
    rw [List.count_append, List.count_append, hr.1, hr.2, List.count_singleton,
      List.count_singleton]
    have hpurges : s.requests.length ∉ s.purges := fun hmem =>
      absurd (h.known.2 _ hmem) (lt_irrefl _)
    by_cases hlen : r = s.requests.length
    · subst hlen
      simp [hpurges, hnew]
    · have hbefore : ((r, Hook.beforeDelete) ∈ s.hooks ++ [(s.requests.length, .beforeDelete)])
          ↔ (r, Hook.beforeDelete) ∈ s.hooks := by
        simp [hlen]
      simp [hlen]
  · intro r hr
    obtain ⟨hlt, -, hnot⟩ := h.lost r hr
    refine ⟨?_, fun hc => absurd ((hperiod r).mp hc) (Nat.ne_of_lt hlt), hnot⟩
    show r < (s.requests ++ [Phase.quiescing id]).length
    rw [List.length_append]
    exact Nat.lt_add_right _ hlt
  · show (∀ e ∈ s.hooks ++ [(s.requests.length, Hook.beforeDelete)],
        e.1 < (s.requests ++ [Phase.quiescing id]).length)
      ∧ ∀ r ∈ s.purges, r < (s.requests ++ [Phase.quiescing id]).length
    rw [List.length_append]
    refine ⟨fun e he => ?_, fun r hr => Nat.lt_add_right _ (h.known.2 r hr)⟩
    rcases List.mem_append.mp he with he | he
    · exact Nat.lt_add_right _ (h.known.1 e he)
    · rw [List.mem_singleton.mp he]
      exact Nat.lt_succ_self _
  · intro r hr
    rw [(hperiod r).mp hr]
    exact List.mem_append_right _ (List.mem_singleton_self _)
  · intro r q hq hqp
    have hlen := (hperiod r).mp ((inPeriod_iff hq).mpr hqp)
    have hq : (s.requests ++ [_])[r]? = some q := hq
    rw [getElem?_join, if_pos hlen] at hq
    cases hq
    refine ⟨nofun, fun hmem => ?_⟩
    rw [hlen] at hmem
    exact absurd (h.known.2 _ hmem) (lt_irrefl _)

/-- A request that stays on its side of the period keeps the invariant, whatever
    hook of a registration it calls. -/
theorem Locked.move (h : Locked s) {r : ℕ} {p q : Phase} (hr : s.requests[r]? = some p)
    (hperiod : q.inPeriod = p.inPeriod) (hpurged : q.purged = p.purged)
    {hooks : List (ℕ × Hook)} (hhooks : hooks = s.hooks
      ∨ hooks = s.hooks ++ [(r, .registered)]) : Locked { s.move r q with hooks } := by
  have hlt := (List.getElem?_eq_some_iff.mp hr).1
  have hsame : ∀ r', InPeriod { s.move r q with hooks } r' ↔ InPeriod s r' := by
    intro r'
    refine (inPeriod_move hr).trans ?_
    by_cases hrr : r' = r
    · rw [if_pos hrr, hrr, inPeriod_iff hr, hperiod]
    · rw [if_neg hrr]
  have hcount : ∀ r' hook, hook ≠ .registered →
      hooks.count (r', hook) = s.hooks.count (r', hook) := by
    intro r' hook hne
    rcases hhooks with rfl | rfl
    · rfl
    · rw [List.count_append, List.count_singleton]
      simp [Ne.symm hne]
  have hmem : ∀ r', (r', Hook.beforeDelete) ∈ hooks ↔ (r', Hook.beforeDelete) ∈ s.hooks := by
    intro r'
    rw [← List.count_pos_iff, ← List.count_pos_iff, hcount r' .beforeDelete nofun]
  have hlen : (s.requests.set r q).length = s.requests.length := List.length_set
  refine ⟨?_, ?_, ?_, ?_, ?_, ?_, ?_⟩
  · exact h.lock.trans (exists_congr (fun r => (hsame r).symm))
  · exact fun r r' hr hr' => h.one r r' ((hsame r).mp hr) ((hsame r').mp hr')
  · intro r'
    have hr' := h.hooks r'
    show hooks.count _ = _ ∧ hooks.count _ = _
    rw [hcount r' .deleted nofun, hcount r' .deleteAborted nofun]
    simp only [hsame, hmem]
    exact hr'
  · intro r' hr'
    obtain ⟨hlt', hout, hnot⟩ := h.lost r' hr'
    exact ⟨hlen ▸ hlt', fun hc => hout ((hsame r').mp hc), hnot⟩
  · show (∀ e ∈ hooks, e.1 < (s.requests.set r q).length)
      ∧ ∀ r' ∈ s.purges, r' < (s.requests.set r q).length
    rw [hlen]
    refine ⟨fun e he => ?_, h.known.2⟩
    rcases hhooks with rfl | rfl
    · exact h.known.1 e he
    · rcases List.mem_append.mp he with he | he
      · exact h.known.1 e he
      · rw [List.mem_singleton.mp he]
        exact hlt
  · exact fun r' hr' => (hmem r').mpr (h.entered r' ((hsame r').mp hr'))
  · intro r' q' hq' hqp
    have hq' : (s.requests.set r q)[r']? = some q' := hq'
    by_cases hrr : r = r'
    · subst hrr
      rw [List.getElem?_set_self hlt] at hq'
      cases hq'
      rw [hpurged]
      exact h.purged r p hr (hperiod ▸ hqp)
    · rw [List.getElem?_set_ne hrr] at hq'
      exact h.purged r' q' hq' hqp

/-- **THE COMMIT OF A PURGE** keeps the invariant. -/
theorem Locked.purge (h : Locked s) {r : ℕ} {p q : Phase} (hr : s.requests[r]? = some p)
    (hp : p.inPeriod = true) (hq : q.inPeriod = true) (hpurged : q.purged = true) :
    Locked { s.move r q with purges := s.purges ++ [r] } := by
  have hlt := (List.getElem?_eq_some_iff.mp hr).1
  have hin : InPeriod s r := (inPeriod_iff hr).mpr hp
  have hsame : ∀ r', InPeriod { s.move r q with purges := s.purges ++ [r] } r' ↔
      InPeriod s r' := by
    intro r'
    refine (inPeriod_move hr).trans ?_
    by_cases hrr : r' = r
    · rw [if_pos hrr, hrr]
      exact ⟨fun _ => hin, fun _ => hq⟩
    · rw [if_neg hrr]
  have hlen : (s.requests.set r q).length = s.requests.length := List.length_set
  refine ⟨?_, ?_, ?_, ?_, ?_, ?_, ?_⟩
  · exact h.lock.trans (exists_congr (fun r => (hsame r).symm))
  · exact fun r r' hr hr' => h.one r r' ((hsame r).mp hr) ((hsame r').mp hr')
  · intro r'
    have hr' := h.hooks r'
    show s.hooks.count _ = (if r' ∈ s.purges ++ [r] ∧ _ then 1 else 0)
      ∧ s.hooks.count _ = (if _ ∧ r' ∉ s.purges ++ [r] ∧ _ then 1 else 0)
    simp only [hsame]
    by_cases hrr : r' = r
    · subst hrr
      simp only [hin, not_true_eq_false, and_false] at hr' ⊢
      exact hr'
    · simp only [List.mem_append, List.mem_singleton, hrr, or_false]
      exact hr'
  · intro r' hr'
    obtain ⟨hlt', hout, hnot⟩ := h.lost r' hr'
    refine ⟨hlen ▸ hlt', fun hc => hout ((hsame r').mp hc), fun hc => ?_⟩
    rcases List.mem_append.mp hc with hc | hc
    · exact hnot hc
    · rw [List.mem_singleton.mp hc] at hout
      exact hout hin
  · show (∀ e ∈ s.hooks, e.1 < (s.requests.set r q).length)
      ∧ ∀ r' ∈ s.purges ++ [r], r' < (s.requests.set r q).length
    rw [hlen]
    refine ⟨h.known.1, fun r' hr' => ?_⟩
    rcases List.mem_append.mp hr' with hr' | hr'
    · exact h.known.2 r' hr'
    · rw [List.mem_singleton.mp hr']
      exact hlt
  · exact fun r' hr' => h.entered r' ((hsame r').mp hr')
  · intro r' q' hq' hqp
    have hq' : (s.requests.set r q)[r']? = some q' := hq'
    show q'.purged = true ↔ r' ∈ s.purges ++ [r]
    by_cases hrr : r = r'
    · subst hrr
      rw [List.getElem?_set_self hlt] at hq'
      cases hq'
      exact ⟨fun _ => List.mem_append_right _ (List.mem_singleton_self _), fun _ => hpurged⟩
    · rw [List.getElem?_set_ne hrr] at hq'
      rw [h.purged r' q' hq' hqp, List.mem_append, List.mem_singleton]
      exact ⟨Or.inl, fun hc => hc.elim id (fun hc => absurd hc.symm hrr)⟩

/-- **THE `finally`** keeps the invariant: it releases the lock and calls the hook
    that says whether the purge committed. -/
theorem Locked.finish (h : Locked s) {r : ℕ} {p : Phase} (answer : Answer)
    (hr : s.requests[r]? = some p) (hp : p.inPeriod = true) :
    Locked (s.finish r p.purged answer) := by
  have hlt := (List.getElem?_eq_some_iff.mp hr).1
  have hin : InPeriod s r := (inPeriod_iff hr).mpr hp
  have hpurges := h.purged r p hr hp
  have hover : ∀ r', ¬ InPeriod (s.finish r p.purged answer) r' := by
    intro r' hr'
    have hr' := (inPeriod_move (q := .answered answer) hr).mp hr'
    by_cases hrr : r' = r
    · rw [if_pos hrr] at hr'
      exact nomatch hr'
    · rw [if_neg hrr] at hr'
      exact hrr (h.one r' r hr' hin)
  have hothers : ∀ r', r' ≠ r → ¬ InPeriod s r' :=
    fun r' hne hr' => hne (h.one r' r hr' hin)
  have hlen : (s.requests.set r (.answered answer)).length = s.requests.length :=
    List.length_set
  refine ⟨?_, ?_, ?_, ?_, ?_, ?_, ?_⟩
  · exact ⟨fun hc => (nomatch hc), fun ⟨r', hr'⟩ => absurd hr' (hover r')⟩
  · exact fun r' _ hr' _ => absurd hr' (hover r')
  · intro r'
    have hr' := h.hooks r'
    show (s.hooks ++ [_]).count _ = (if r' ∈ s.purges ∧ _ then 1 else 0)
      ∧ (s.hooks ++ [_]).count _ = (if _ ∈ s.hooks ++ [_] ∧ r' ∉ s.purges ∧ _ then 1 else 0)
    simp only [hover, not_false_eq_true, and_true]
    rw [List.count_append, List.count_append, hr'.1, hr'.2, List.count_singleton,
      List.count_singleton]
    by_cases hrr : r' = r
    · subst hrr
      have hentered := h.entered r' hin
      cases hpur : p.purged with
      | true => simp [hin, hpurges.mp hpur]
      | false =>
          have hnot : r' ∉ s.purges := fun hmem => by
            rw [hpurges.mpr hmem] at hpur
            exact nomatch hpur
          simp [hin, hnot, hentered]
    · simp [hothers r' hrr, hrr, Ne.symm hrr]
  · intro r' hr'
    obtain ⟨hlt', -, hnot⟩ := h.lost r' hr'
    exact ⟨hlen ▸ hlt', hover r', hnot⟩
  · refine (?_ : (∀ e ∈ s.hooks ++ [(r, if p.purged then Hook.deleted else .deleteAborted)],
        e.1 < (s.requests.set r (.answered answer)).length)
      ∧ ∀ r' ∈ s.purges, r' < (s.requests.set r (.answered answer)).length)
    rw [hlen]
    refine ⟨fun e he => ?_, h.known.2⟩
    rcases List.mem_append.mp he with he | he
    · exact h.known.1 e he
    · rw [List.mem_singleton.mp he]
      exact hlt
  · exact fun r' hr' => absurd hr' (hover r')
  · exact fun r' q' hq' hqp => absurd ((inPeriod_iff hq').mpr hqp) (hover r')

/-- **A LOST REPLY** changes nothing of what the handlers see. -/
theorem Locked.lose (h : Locked s) {r : ℕ} (hlt : r < s.requests.length)
    (hout : ¬ InPeriod s r) (hnot : r ∉ s.purges) :
    Locked { s with lost := s.lost ++ [r] } :=
  { h with
    lost := by
      intro r' hr'
      rcases List.mem_append.mp hr' with hr' | hr'
      · exact h.lost r' hr'
      · rw [List.mem_singleton.mp hr']
        exact ⟨hlt, hout, hnot⟩ }

/-- **THE STEP LEMMA**. -/
theorem Locked.of_turn (h : Locked s) (ht : Turn s t) : Locked t := by
  cases ht with
  | join hp => exact h.join hp
  | enter id hlock => exact h.enter id hlock
  | move hr hperiod hpurged => exact h.move hr hperiod hpurged (Or.inl rfl)
  | register hr hperiod hpurged => exact h.move hr hperiod hpurged (Or.inr rfl)
  | purge hr hp hnot hq hpurged => exact h.purge hr hp hq hpurged
  | finish answer hr hp => exact h.finish answer hr hp
  | lose answer hr hp hnot =>
      have hlt := (List.getElem?_eq_some_iff.mp hr).1
      refine (h.finish answer hr hp).lose (lt_of_lt_of_eq hlt List.length_set.symm) ?_ ?_
      · intro hc
        have hc := (inPeriod_move (q := .answered answer) hr).mp hc
        rw [if_pos rfl] at hc
        exact nomatch hc
      · intro hmem
        rw [(h.purged _ _ hr hp).mpr hmem] at hnot
        exact nomatch hnot

/-- **THE RUN LEMMA**: the lock is exact in every run. -/
theorem locked_run {engine : Engine} (h : Steps (step engine) anyStep {} s) : Locked s := by
  refine h.inv Locked ?_ (fun u a u' hu _ hs => hu.of_turn (turn_of_step hs))
  have hnone : ∀ {r}, ¬ InPeriod {} r := fun h => nomatch h
  exact {
    lock := ⟨fun h => (nomatch h), fun ⟨_, h⟩ => absurd h hnone⟩
    one := fun r r' h => absurd h hnone
    hooks := fun r => ⟨rfl, rfl⟩
    lost := fun r hr => (nomatch hr)
    known := ⟨fun e he => (nomatch he), fun r hr => (nomatch hr)⟩
    entered := fun r h => absurd h hnone
    purged := fun r p hr => (nomatch hr) }

/-- What resuming a request does to it: it starts nothing, and a DELETE in its
    period comes one call nearer to its end, where it releases the lock. -/
def Resumes (s : Server) (r : ℕ) (p : Phase) (t : Server) : Prop :=
  ∃ q, t.requests = s.requests.set r q ∧ (q.mutates = true → p.mutates = true)
    ∧ (q.inPeriod = true → p.inPeriod = true)
    ∧ (p.inPeriod = true → q.awaits < p.awaits
      ∧ (q.inPeriod = false → t.maintenance = false))

theorem resumes_move {r : ℕ} {p q : Phase} (ht : t.requests = s.requests.set r q)
    (hm : q.mutates = true → p.mutates = true) (hperiod : q.inPeriod = p.inPeriod)
    (hawaits : p.inPeriod = true → q.awaits < p.awaits) : Resumes s r p t := by
  refine ⟨q, ht, hm, fun h => hperiod ▸ h, fun h => ⟨hawaits h, fun hq => ?_⟩⟩
  rw [hperiod, h] at hq
  exact nomatch hq

theorem resumes_finish {r : ℕ} {p : Phase} {purged : Bool} {answer : Answer}
    (hp : p.inPeriod = true) (hawaits : 0 < p.awaits) :
    Resumes s r p (s.finish r purged answer) :=
  ⟨.answered answer, rfl, nofun, fun _ => hp, fun _ => ⟨hawaits, fun _ => rfl⟩⟩

theorem resumes_of_resume {engine : Engine} {r : ℕ} {p : Phase} {outcome : Outcome}
    (h : resume engine s r p outcome = some t) : Resumes s r p t := by
  cases p with
  | fetching => cases outcome <;> cases h <;> exact resumes_move rfl nofun rfl nofun
  | reading route => exact nomatch h
  | registering issuance =>
      cases issuance with
      | error message => cases h; exact resumes_move rfl (fun _ => rfl) rfl nofun
      | ok row => cases outcome <;> cases h <;> exact resumes_move rfl (fun _ => rfl) rfl nofun
  | toggling id enabled =>
      cases outcome <;> cases h <;> exact resumes_move rfl (fun _ => rfl) rfl nofun
  | updating id enabled =>
      cases outcome <;> cases h <;> exact resumes_move rfl (fun _ => rfl) rfl nofun
  | quiescing id =>
      cases outcome with
      | ok => cases h; exact resumes_move rfl nofun rfl (fun _ => Nat.lt_succ_self 5)
      | missing => cases h; exact resumes_finish rfl (Nat.succ_pos 5)
      | failed => cases h; exact resumes_finish rfl (Nat.succ_pos 5)
      | lost => cases h; exact resumes_finish rfl (Nat.succ_pos 5)
  | lookingUp id =>
      cases outcome with
      | ok => cases h; exact resumes_move rfl nofun rfl (fun _ => Nat.lt_succ_self 4)
      | missing => cases h; exact resumes_finish rfl (Nat.succ_pos 4)
      | failed => cases h; exact resumes_finish rfl (Nat.succ_pos 4)
      | lost => cases h; exact resumes_finish rfl (Nat.succ_pos 4)
  | listing id =>
      cases outcome with
      | ok => cases h; exact resumes_move rfl nofun rfl (fun _ => Nat.lt_succ_self 3)
      | missing => cases h; exact resumes_finish rfl (Nat.succ_pos 3)
      | failed => cases h; exact resumes_finish rfl (Nat.succ_pos 3)
      | lost => cases h; exact resumes_finish rfl (Nat.succ_pos 3)
  | purging id =>
      cases outcome with
      | ok =>
          cases h
          refine resumes_move rfl nofun rfl (fun _ => ?_)
          show max 1 (compactStatements engine).length < 3
          cases engine <;> decide
      | missing => cases h; exact resumes_finish rfl (Nat.succ_pos 2)
      | failed => cases h; exact resumes_finish rfl (Nat.succ_pos 2)
      | lost =>
          cases h
          exact @resumes_finish s r (.purging id) false badRequest rfl (Nat.succ_pos 2)
  | vacuuming id statements =>
      have hpos : 0 < (Phase.vacuuming id statements).awaits := by
        show 0 < max 1 statements.length
        omega
      have hnext : ∀ (a b : String) (rest : List String),
          (Phase.vacuuming id (b :: rest)).awaits
            < (Phase.vacuuming id (a :: b :: rest)).awaits := by
        intro a b rest
        show max 1 (rest.length + 1) < max 1 (rest.length + 1 + 1)
        omega
      match statements, outcome, h with
      | _ :: _ :: _, .missing, h =>
          cases h; exact resumes_move rfl nofun rfl (fun _ => hnext _ _ _)
      | _ :: _ :: _, .failed, h =>
          cases h; exact resumes_move rfl nofun rfl (fun _ => hnext _ _ _)
      | _ :: _ :: _, .lost, h =>
          cases h; exact resumes_move rfl nofun rfl (fun _ => hnext _ _ _)
      | _ :: _ :: _, .ok, h => cases h; exact resumes_finish rfl hpos
      | [_], .ok, h => cases h; exact resumes_finish rfl hpos
      | [_], .missing, h => cases h; exact resumes_finish rfl hpos
      | [_], .failed, h => cases h; exact resumes_finish rfl hpos
      | [_], .lost, h => cases h; exact resumes_finish rfl hpos
      | [], .ok, h => cases h; exact resumes_finish rfl hpos
      | [], .missing, h => cases h; exact resumes_finish rfl hpos
      | [], .failed, h => cases h; exact resumes_finish rfl hpos
      | [], .lost, h => cases h; exact resumes_finish rfl hpos
  | answered answer => exact nomatch h

/-- A DELETE in its period resumes whatever it is answered. -/
theorem resume_inPeriod (engine : Engine) (s : Server) (r : ℕ) {p : Phase}
    (hp : p.inPeriod = true) (outcome : Outcome) :
    ∃ t, resume engine s r p outcome = some t := by
  cases p with
  | quiescing id => cases outcome <;> exact ⟨_, rfl⟩
  | lookingUp id => cases outcome <;> exact ⟨_, rfl⟩
  | listing id => cases outcome <;> exact ⟨_, rfl⟩
  | purging id => cases outcome <;> exact ⟨_, rfl⟩
  | vacuuming id statements =>
      match statements with
      | [] => cases outcome <;> exact ⟨_, rfl⟩
      | [_] => cases outcome <;> exact ⟨_, rfl⟩
      | _ :: _ :: _ => cases outcome <;> exact ⟨_, rfl⟩
  | _ => exact nomatch hp

theorem releases (engine : Engine) (s : Server) : Releases engine s := by
  intro r p outcome hr hp
  obtain ⟨t, ht⟩ := resume_inPeriod engine s r hp outcome
  obtain ⟨q, hq, -, -, hnear⟩ := resumes_of_resume ht
  refine ⟨t, q, ?_, ?_, hnear hp⟩
  · show (s.requests[r]?).bind _ = _
    rw [hr]
    exact ht
  · rw [hq]
    exact List.getElem?_set_self (List.getElem?_eq_some_iff.mp hr).1

theorem Locked.rejects (h : Locked s) : Rejects s := by
  intro req id hperiod hpath hauth hmut
  have hlock := h.lock.mpr hperiod
  have hget : req.method ≠ .get := by
    intro hget
    rw [hget] at hmut
    exact nomatch hmut
  have hroute : route s.maintenance req = .answered maintenanceInProgress := by
    unfold route
    rw [if_neg (fun hc => hget hc.1), if_neg (by rw [hauth]; exact nofun), hpath]
    show (if _ then _ else _) = _
    rw [hmut, hlock]
    rfl
  refine ⟨?_, rfl⟩
  rw [arrive_eq (by rw [hroute]; rfl), hroute]

/-! ## Exclusion -/

/-- Which request mutates or is in its period after one has joined. -/
theorem inPeriod_join {p : Phase} (ht : t.requests = s.requests ++ [p]) {r : ℕ} :
    (InPeriod t r ↔ if r = s.requests.length then p.inPeriod = true else InPeriod s r)
      ∧ (Mutates t r ↔
        if r = s.requests.length then p.mutates = true else Mutates s r) := by
  unfold InPeriod Mutates
  rw [ht, getElem?_join]
  by_cases hr : r = s.requests.length
  · rw [if_pos hr, if_pos hr, if_pos hr, Option.map_some, Option.map_some, Option.some_inj,
      Option.some_inj]
    exact ⟨Iff.rfl, Iff.rfl⟩
  · rw [if_neg hr, if_neg hr, if_neg hr]
    exact ⟨Iff.rfl, Iff.rfl⟩

/-- Arriving starts no registration and no toggle. -/
theorem route_mutates (maintenance : Bool) (req : Request) :
    (route maintenance req).mutates = false := by
  unfold route
  split
  · rfl
  split
  · rfl
  split
  · split
    · rfl
    split <;> rfl
  · rfl

theorem Mutates.lt {r : ℕ} (h : Mutates s r) : r < s.requests.length := by
  obtain ⟨p, hr, -⟩ := Option.map_eq_some_iff.mp h
  exact (List.getElem?_eq_some_iff.mp hr).1

/-- A DELETE that takes the lock excludes what is under way. -/
theorem Locked.exclusive_delete (h : Locked s) {req : Request}
    (hp : (route s.maintenance req).inPeriod = true) :
    Exclusive (arrive s req) ↔ ∀ r < s.requests.length, ¬ Mutates s r := by
  obtain ⟨hlock, id, hroute⟩ := route_inPeriod hp
  have hjoin : (arrive s req).requests = s.requests ++ [.quiescing id] := by
    rw [arrive_delete hroute]
  have hin : InPeriod (arrive s req) s.requests.length := by
    rw [(inPeriod_join hjoin).1, if_pos rfl]
    rfl
  -- the lock was free: nobody else is in a period
  have hall : ∀ r, InPeriod (arrive s req) r → r = s.requests.length := by
    intro r hr
    by_cases hlen : r = s.requests.length
    · exact hlen
    · rw [(inPeriod_join hjoin).1, if_neg hlen] at hr
      rw [h.lock.mpr ⟨r, hr⟩] at hlock
      exact nomatch hlock
  constructor
  · intro hext r hlt hr
    have hne := Nat.ne_of_lt hlt
    refine hne.symm (hext _ r hin (Or.inr ?_))
    rw [(inPeriod_join hjoin).2, if_neg hne]
    exact hr
  · intro hok r r' hr hr'
    rcases hr' with hr' | hr'
    · exact (hall r hr).trans (hall r' hr').symm
    · exfalso
      rw [(inPeriod_join hjoin).2] at hr'
      by_cases hlen : r' = s.requests.length
      · rw [if_pos hlen] at hr'
        exact nomatch hr'
      · rw [if_neg hlen] at hr'
        exact hok r' hr'.lt hr'

/-- Any other request may arrive at any time. -/
theorem exclusive_arrive (hex : Exclusive s) {req : Request}
    (hp : (route s.maintenance req).inPeriod = false) : Exclusive (arrive s req) := by
  have hmut := route_mutates s.maintenance req
  have hjoin : (arrive s req).requests = s.requests ++ [route s.maintenance req] := by
    rw [arrive_eq hp]
  have hback : ∀ r, (InPeriod (arrive s req) r → InPeriod s r)
      ∧ (Mutates (arrive s req) r → Mutates s r) := by
    intro r
    obtain ⟨h₁, h₂⟩ := inPeriod_join (r := r) hjoin
    rw [h₁, h₂, hp, hmut]
    by_cases hlen : r = s.requests.length
    · rw [if_pos hlen, if_pos hlen]
      exact ⟨nofun, nofun⟩
    · rw [if_neg hlen, if_neg hlen]
      exact ⟨id, id⟩
  intro r r' hr hr'
  exact hex r r' ((hback r).1 hr) (hr'.imp (hback r').1 (hback r').2)

/-- A body may start a registration or a toggle exactly while the lock is free. -/
theorem Locked.exclusive_body (h : Locked s) (hex : Exclusive s) {r : ℕ} {route : Route}
    (hr : s.requests[r]? = some (.reading route)) (json : Option Body) :
    Exclusive (s.move r (readBody route json)) ↔
      ((readBody route json).mutates = true → s.maintenance = false) := by
  have hin : ∀ r', InPeriod (s.move r (readBody route json)) r' ↔ InPeriod s r' := by
    intro r'
    rw [inPeriod_move hr, (readBody_inPeriod route json).1]
    by_cases hrr : r' = r
    · rw [if_pos hrr, hrr, inPeriod_iff hr]
      rfl
    · rw [if_neg hrr]
  constructor
  · intro hext hst
    by_contra hlock
    obtain ⟨d, hd⟩ := h.lock.mp (Bool.eq_true_of_not_eq_false hlock)
    have hmut : Mutates (s.move r (readBody route json)) r := by
      rw [mutates_move hr, if_pos rfl]
      exact hst
    have hdr := hext d r ((hin d).mpr hd) (Or.inr hmut)
    rw [hdr, inPeriod_iff hr] at hd
    exact nomatch hd
  · intro hok d r' hd hr'
    have hd := (hin d).mp hd
    rcases hr' with hr' | hr'
    · exact h.one d r' hd ((hin r').mp hr')
    · rw [mutates_move hr] at hr'
      by_cases hrr : r' = r
      · rw [if_pos hrr] at hr'
        have hlock := hok hr'
        rw [h.lock.mpr ⟨d, hd⟩] at hlock
        exact nomatch hlock
      · rw [if_neg hrr] at hr'
        exact hex d r' hd (Or.inr hr')

/-- A request that goes on enters no period and starts no registration. -/
theorem exclusive_resume (hex : Exclusive s) {engine : Engine} {r : ℕ} {p : Phase}
    {outcome : Outcome} (hr : s.requests[r]? = some p)
    (hs : resume engine s r p outcome = some t) : Exclusive t := by
  obtain ⟨q, hq, hmut, hper, -⟩ := resumes_of_resume hs
  have hback : ∀ r', (InPeriod t r' → InPeriod s r') ∧ (Mutates t r' → Mutates s r') := by
    intro r'
    have h₁ : InPeriod t r' ↔ InPeriod (s.move r q) r' := by
      unfold InPeriod
      rw [hq]
      rfl
    have h₂ : Mutates t r' ↔ Mutates (s.move r q) r' := by
      unfold Mutates
      rw [hq]
      rfl
    rw [h₁, h₂, inPeriod_move hr, mutates_move hr]
    by_cases hrr : r' = r
    · rw [if_pos hrr, if_pos hrr, hrr, inPeriod_iff hr, mutates_iff hr]
      exact ⟨hper, hmut⟩
    · rw [if_neg hrr, if_neg hrr]
      exact ⟨id, id⟩
  intro d r' hd hr'
  exact hex d r' ((hback d).1 hd) (hr'.imp (hback r').1 (hback r').2)

/-- **A STEP KEEPS THE EXCLUSION EXACTLY WHEN NOTHING ELSE COMES**. -/
theorem Locked.exclusive_iff (h : Locked s) {engine : Engine} (hex : Exclusive s) {a : Action}
    (hs : step engine s a = some t) : Exclusive t ↔ Alone s a := by
  cases a with
  | arrive req =>
      cases Option.some.inj hs
      by_cases hp : (route s.maintenance req).inPeriod = true
      · rw [h.exclusive_delete hp]
        exact ⟨fun hok _ => hok, fun hok => hok hp⟩
      · have halone := exclusive_arrive hex (Bool.eq_false_iff.mpr hp)
        exact ⟨fun _ hc => absurd hc hp, fun _ => halone⟩
  | body r json =>
      cases hr : s.requests[r]? with
      | none => simp only [step, hr] at hs; exact nomatch hs
      | some p =>
          cases p with
          | reading route =>
              simp only [step, hr] at hs
              cases Option.some.inj hs
              have hstarts : Starts s r json ↔ (readBody route json).mutates = true := by
                unfold Starts
                rw [hr, Option.map_some, Option.some_inj]
              rw [h.exclusive_body hex hr json]
              exact ⟨fun hok hst => hok (hstarts.mp hst), fun hok hm => hok (hstarts.mpr hm)⟩
          | _ => simp only [step, hr] at hs; exact nomatch hs
  | resume r outcome =>
      obtain ⟨p, hr, hs⟩ := Option.bind_eq_some_iff.mp hs
      exact ⟨fun _ => trivial, fun _ => exclusive_resume hex hr hs⟩

/-! ## The hooks -/

/-- **THE HOOKS ARE EXACT** as long as no reply to a purge is lost. -/
theorem Locked.hooksExact_iff (h : Locked s) : HooksExact s ↔ s.lost = [] := by
  constructor
  · intro hexact
    by_contra hne
    obtain ⟨r, hr⟩ := List.exists_mem_of_ne_nil s.lost hne
    obtain ⟨-, hout, hnot⟩ := h.lost r hr
    have htold := (h.hooks r).1
    have hsaid := (hexact r).1
    rw [if_neg (fun hc => hnot hc.1)] at htold
    rw [if_pos ⟨List.mem_append_right _ hr, hout⟩, htold] at hsaid
    exact nomatch hsaid
  · intro hnil
    show HooksSay s (s.purges ++ s.lost)
    rw [hnil, List.append_nil]
    exact h.hooks

/-- A reply to a purge is lost, or none is. -/
theorem lost_of_resume {engine : Engine} {r : ℕ} {p : Phase} {outcome : Outcome}
    (h : resume engine s r p outcome = some t) :
    t.lost = if outcome = .lost ∧ p.commits = true then s.lost ++ [r] else s.lost := by
  cases p with
  | reading route => exact nomatch h
  | answered answer => exact nomatch h
  | registering issuance =>
      cases issuance with
      | error message => cases h; rw [if_neg (fun hc => nomatch hc.2)]; rfl
      | ok row => cases outcome <;> cases h <;> rfl
  | vacuuming id statements =>
      rw [if_neg (fun hc => nomatch hc.2)]
      match statements, outcome, h with
      | _ :: _ :: _, .missing, h => cases h; rfl
      | _ :: _ :: _, .failed, h => cases h; rfl
      | _ :: _ :: _, .lost, h => cases h; rfl
      | _ :: _ :: _, .ok, h => cases h; rfl
      | [_], _, h => cases h; rfl
      | [], _, h => cases h; rfl
  | _ => cases outcome <;> cases h <;> rfl

theorem arrive_lost (s : Server) (req : Request) : (arrive s req).lost = s.lost := by
  unfold arrive
  split <;> rfl

/-- **A STEP KEEPS THE HOOKS EXACT EXACTLY WHEN A PURGE IS TOLD**. -/
theorem Locked.hooksExact_step_iff (h : Locked s) {engine : Engine} (hex : HooksExact s)
    {a : Action} (hs : step engine s a = some t) : HooksExact t ↔ Told s a := by
  rw [(h.of_turn (turn_of_step hs)).hooksExact_iff]
  have hnil := h.hooksExact_iff.mp hex
  cases a with
  | arrive req =>
      cases Option.some.inj hs
      exact ⟨fun _ => trivial, fun _ => (arrive_lost s req).trans hnil⟩
  | body r json =>
      refine ⟨fun _ => trivial, fun _ => ?_⟩
      cases hr : s.requests[r]? with
      | none => simp only [step, hr] at hs; exact nomatch hs
      | some p =>
          cases p with
          | reading route =>
              simp only [step, hr] at hs
              cases Option.some.inj hs
              exact hnil
          | _ => simp only [step, hr] at hs; exact nomatch hs
  | resume r outcome =>
      obtain ⟨p, hr, hs⟩ := Option.bind_eq_some_iff.mp hs
      rw [lost_of_resume hs]
      show _ ↔ (outcome = .lost → s.requests[r]?.map Phase.commits ≠ some true)
      rw [hr, Option.map_some]
      by_cases hlost : outcome = .lost ∧ p.commits = true
      · rw [if_pos hlost]
        refine ⟨fun hc => absurd hc (List.append_ne_nil_of_right_ne_nil _ nofun), fun hc => ?_⟩
        rw [hlost.2] at hc
        exact absurd rfl (hc hlost.1)
      · rw [if_neg hlost]
        exact ⟨fun _ houtcome hc => hlost ⟨houtcome, Option.some.inj hc⟩, fun _ => hnil⟩

end Lock

/-- **A DELETION EXCLUDES EVERY OTHER MUTATION** and its hooks say what became of
    it, whenever every step is undisturbed; both hold no longer after the first step
    that is not.  In every run at all the lock is held exactly in the period of a
    DELETE and released at its end, what arrives meanwhile is answered 409, and the
    hooks say which purges were told that they committed. -/
theorem delete_excludes_other_mutations (engine : Engine) (s : Server) :
    (Steps (step engine) anyStep {} s →
        LockExact s ∧ Rejects s ∧ HooksSay s s.purges ∧ (HooksExact s ↔ s.lost = [])
          ∧ Releases engine s)
      ∧ (Steps (step engine) Undisturbed {} s →
        (Exclusive s ∧ HooksExact s)
          ∧ ∀ a t, step engine s a = some t →
            (Exclusive t ∧ HooksExact t ↔ Undisturbed s a)) := by
  have hlocked : ∀ {u}, Steps (step engine) Undisturbed {} u → Locked u :=
    fun h => locked_run (h.weaken fun _ _ _ => trivial)
  constructor
  · intro h
    have hl := locked_run h
    exact ⟨hl.lock, hl.rejects, hl.hooks, hl.hooksExact_iff, releases engine s⟩
  · intro h
    have hkept : ∀ {u}, Locked u → Exclusive u → HooksExact u → ∀ a u',
        step engine u a = some u' → (Exclusive u' ∧ HooksExact u' ↔ Undisturbed u a) :=
      fun hl hex hhooks a u' hs =>
        and_congr (hl.exclusive_iff hex hs) (hl.hooksExact_step_iff hhooks hs)
    have hempty : Locked {} := hlocked (Steps.refl _)
    have halone : Exclusive {} := fun r r' hr => nomatch hr
    have hboth := h.inv (fun u => Locked u ∧ Exclusive u ∧ HooksExact u)
      ⟨hempty, halone, hempty.hooksExact_iff.mpr rfl⟩
      (fun u a u' hu hok hs => ⟨hu.1.of_turn (turn_of_step hs),
        (hkept hu.1 hu.2.1 hu.2.2 a u' hs).mpr hok⟩)
    exact ⟨hboth.2, hkept hboth.1 hboth.2.1 hboth.2.2⟩

/-! ## A body that comes late -/

def deleteRequest : Request := ⟨.delete, .issuances (some "1"), true⟩

def registerRequest : Request := ⟨.post, .issuances none, true⟩

/-- A registration, then a deletion that has committed and is compacting. -/
theorem delete_excludes_other_mutations_compacting : ∃ s : Server,
    s.purges = [1] ∧ s.maintenance = true ∧ LockExact s ∧ Exclusive s ∧ HooksExact s := by
  let actions : List Action :=
    [.arrive registerRequest,
      .body 0 (some { kind := some "mpt", mptIssuanceId := some "00" }), .resume 0 .ok,
      .arrive deleteRequest, .resume 1 .ok, .resume 1 .ok, .resume 1 .ok, .resume 1 .ok]
  have hrun : (runChecked (step .pglite) Undisturbed {} actions).map
      (fun s => (s.purges, s.maintenance)) = some ([1], true) := by decide +kernel
  obtain ⟨s, hs, hf⟩ := Steps.exists_of_runChecked _ hrun
  obtain ⟨hpurges, hlock⟩ := Prod.mk.inj hf
  obtain ⟨hall, hundisturbed⟩ := delete_excludes_other_mutations .pglite s
  obtain ⟨hexact, -⟩ := hall (hs.weaken fun _ _ _ => trivial)
  exact ⟨s, hpurges, hlock, hexact, (hundisturbed hs).1⟩

/-- A POST is let through before the DELETE, and its body comes when the DELETE is
    quiescing: the registration starts.  In another run the purge commits, its reply
    is lost, and `onDeleteAborted` is called. -/
theorem deletion_disturbed :
    (∃ s, Steps (step .pglite) anyStep {} s ∧ ¬ Exclusive s)
      ∧ ∃ s, Steps (step .postgres) anyStep {} s ∧ s.lost = [0]
          ∧ (0, .deleteAborted) ∈ s.hooks ∧ ¬ HooksExact s := by
  constructor
  · have hrun : (run (step .pglite) {}
        [.arrive registerRequest, .arrive deleteRequest,
          .body 0 (some { kind := some "mpt", mptIssuanceId := some "00" })]).map
            (fun s => (decide (InPeriod s 1), decide (Mutates s 0))) = some (true, true) := by
      decide +kernel
    obtain ⟨s, hs, hf⟩ := Steps.exists_of_run _ hrun
    obtain ⟨hperiod, hmut⟩ := Prod.mk.inj hf
    refine ⟨s, hs, fun hex => ?_⟩
    exact absurd (hex 1 0 (of_decide_eq_true hperiod) (Or.inr (of_decide_eq_true hmut))) nofun
  · have hrun : (run (step .postgres) {}
        [.arrive deleteRequest, .resume 0 .ok, .resume 0 .ok, .resume 0 .ok,
          .resume 0 .lost]).map
            (fun s => (s.lost, s.hooks.contains (0, .deleteAborted))) = some ([0], true) := by
      decide +kernel
    obtain ⟨s, hs, hf⟩ := Steps.exists_of_run _ hrun
    obtain ⟨hlost, hhook⟩ := Prod.mk.inj hf
    refine ⟨s, hs, hlost, List.contains_iff_mem.mp hhook, fun hexact => ?_⟩
    rw [(locked_run hs).hooksExact_iff, hlost] at hexact
    exact nomatch hexact

end RegistrarAdmin
