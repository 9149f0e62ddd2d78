import Registrar.AdminLock

/-! # Who is let in at the admin server

    A request passes the gate with the bearer token or with the cookie of a session,
    which a login exchanged the token for.  Sessions are kept in memory and swept as they
    are asked for; a logout or the end of the process ends them.  `Admin` puts the session
    endpoints, which precede the gate, in front of the server of `RegistrarAdmin`.  A
    request whose URL does not parse is answered before all of them.

    `#handle` returns the promise of `#login` unawaited: a login whose body cannot be read
    rejects past the `catch`, and the process ends. -/

namespace RegistrarSessions

open Runs RegistrarAdmin

/-! ## Headers -/

/-- `s.split(sep)`. -/
def split (sep : Char) (s : String) : List String :=
  (s.toList.splitOn sep).map String.ofList

/-- A part of a `Cookie` header that has an equals sign. -/
def parsePart (part : String) : Option (String × String) :=
  if '=' ∈ part.toList then
    some (trim (String.ofList (part.toList.takeWhile (· ≠ '='))),
      trim (String.ofList (part.toList.dropWhile (· ≠ '=')).tail))
  else none

/-- `parseCookies`, in the order of the header. -/
def parseCookies (header : Option String) : List (String × String) :=
  (split ';' (header.getD "")).filterMap parsePart

def sessionCookie : String := "adm_session"

/-- `parseCookies(header)[SESSION_COOKIE]`, where the last of a name wins. -/
def sessionId (header : Option String) : Option String :=
  ((parseCookies header).reverse.find? (fun c => c.1 = sessionCookie)).map (·.2)

/-- What follows `Bearer `. -/
def bearer (authorization : Option String) : Option String :=
  let header := (authorization.getD "").toList
  if "Bearer ".toList <+: header then some (String.ofList (header.drop 7)) else none

/-! ## Sessions -/

/-- `randomBytes(32).toString("hex")`. -/
structure SessionId where
  hex : String
  length : hex.toList.length = 64
  digits : ∀ c ∈ hex.toList, c ∈ "0123456789abcdef".toList

structure AdminOptions where
  token : String
  token_ne_empty : token ≠ ""
  sessionTtlMs : ℕ := 12 * 60 * 60 * 1000
  secureCookie : Bool := false

/-- What the gate reads of a request.  `pathname` is that of
    `new URL(req.url ?? "/", "http://localhost")`, which throws on a target such as
    `//`. -/
structure HttpRequest where
  method : Method
  pathname : Option String
  authorization : Option String := none
  cookie : Option String := none

/-- The value of `set-cookie` after a login. -/
def setCookie (o : AdminOptions) (sid : SessionId) : String :=
  "; ".intercalate ([sessionCookie ++ "=" ++ sid.hex, "HttpOnly", "SameSite=Strict", "Path=/",
    "Max-Age=" ++ toString (o.sessionTtlMs / 1000)] ++ if o.secureCookie then ["Secure"] else [])

/-- `pathname.replace(/\/+$/, "") || "/"`. -/
def stripSlashes (pathname : String) : String :=
  let stripped := String.ofList (pathname.toList.reverse.dropWhile (· = '/')).reverse
  if stripped = "" then "/" else stripped

inductive Endpoint
  | malformed
  | login
  | logout
  | admin (path : Path)

/-- The path of the admin API, or the dashboard. -/
def pathOf (pathname : String) : Path :=
  if pathname = "/" ∨ pathname = "/dashboard" then .dashboard
  else
    match (split '/' pathname).filter (fun part => decide (part ≠ "")) with
    | "admin" :: "issuances" :: rest => .issuances rest.head?
    | _ => .elsewhere

def endpoint (req : HttpRequest) : Endpoint :=
  match req.pathname.map stripSlashes with
  | none => .malformed
  | some pathname =>
      if req.method = .post ∧ pathname = "/admin/login" then .login
      else if req.method = .post ∧ pathname = "/admin/logout" then .logout
      else .admin (pathOf pathname)

/-- A request for the page that has no data. -/
def Shell (req : HttpRequest) (path : Path) : Prop := req.method = .get ∧ path = .dashboard

instance (req : HttpRequest) (path : Path) : Decidable (Shell req path) :=
  inferInstanceAs (Decidable (_ ∧ _))

/-! ## The server -/

/-- What became of the sessions, oldest first: a login for a token, a logout. -/
inductive Entry
  | issued (sid : String) (expiry : ℤ) (provided : String)
  | ended (sid : String)
  deriving DecidableEq

/-- A request that came to the gate, the time, and what had become of the sessions. -/
structure Arrival where
  req : HttpRequest
  path : Path
  now : ℤ
  log : List Entry

/-- A login waits for its body, or has its answer. -/
inductive Login
  | awaiting (req : HttpRequest)
  | refused
  | welcomed (setCookie : String)

/-- `malformed` are the answers to the requests whose URL does not parse; `log`,
    `arrivals` and `clock`, the latest time a handler read, are history. -/
structure Admin where
  sessions : String → Option ℤ := fun _ => none
  malformed : List (HttpRequest × Answer) := []
  logins : List Login := []
  server : Server := {}
  up : Bool := true
  log : List Entry := []
  arrivals : List Arrival := []
  clock : ℤ := 0

/-- A body is `none` when `readJson` rejects it, or it is null; else it has its `token`,
    if that is a string. -/
inductive Event
  | request (req : HttpRequest) (now : ℤ)
  | login (login : ℕ) (body : Option (Option String)) (sid : SessionId) (now : ℤ)
  | body (request : ℕ) (json : Option Body)
  | resume (request : ℕ) (outcome : Outcome)

def bearerOk (o : AdminOptions) (req : HttpRequest) : Bool :=
  bearer req.authorization = some o.token

/-- `#sessionOk`, which sweeps a session it finds expired. -/
def sessionOk (s : Admin) (req : HttpRequest) (now : ℤ) : Bool × (String → Option ℤ) :=
  match (sessionId req.cookie).filter (fun sid => decide (sid ≠ "")) with
  | none => (false, s.sessions)
  | some sid =>
      match s.sessions sid with
      | none => (false, s.sessions)
      | some expiry =>
          if expiry ≤ now then (false, Function.update s.sessions sid none)
          else (true, s.sessions)

/-- `#authorized`. -/
def authorized (o : AdminOptions) (s : Admin) (req : HttpRequest) (now : ℤ) :
    Bool × (String → Option ℤ) :=
  if bearerOk o req then (true, s.sessions) else sessionOk s req now

def logout (s : Admin) (req : HttpRequest) : Admin :=
  match (sessionId req.cookie).filter (fun sid => decide (sid ≠ "")) with
  | none => s
  | some sid =>
      { s with
        sessions := Function.update s.sessions sid none
        log := s.log ++ [.ended sid] }

/-- A request comes to the gate. -/
def comeToGate (o : AdminOptions) (s : Admin) (req : HttpRequest) (now : ℤ) (path : Path) :
    Admin :=
  let gate := if Shell req path then (false, s.sessions) else authorized o s req now
  { s with
    sessions := gate.2
    server := arrive s.server ⟨req.method, path, gate.1⟩
    arrivals := s.arrivals ++ [⟨req, path, now, s.log⟩] }

/-- `#handle` of a request that arrives. -/
def receive (o : AdminOptions) (s : Admin) (req : HttpRequest) (now : ℤ) : Admin :=
  match endpoint req with
  | .malformed => { s with malformed := s.malformed ++ [(req, badRequest)] }
  | .login => { s with logins := s.logins ++ [.awaiting req] }
  | .logout => logout s req
  | .admin path => comeToGate o s req now path

/-- The token a login provides. -/
def provided (req : HttpRequest) (token : Option String) : String :=
  match token.filter (fun t => decide (t ≠ "")) with
  | some token => token
  | none => (bearer req.authorization).getD ""

/-- `#login`, once the body has been read. -/
def login (o : AdminOptions) (s : Admin) (k : ℕ) (req : HttpRequest) (token : Option String)
    (sid : SessionId) (now : ℤ) : Admin :=
  if provided req token = "" ∨ provided req token ≠ o.token then
    { s with logins := s.logins.set k .refused }
  else
    { s with
      sessions := Function.update s.sessions sid.hex (some (now + o.sessionTtlMs))
      logins := s.logins.set k (.welcomed (setCookie o sid))
      log := s.log ++ [.issued sid.hex (now + o.sessionTtlMs) (provided req token)] }

def stepUp (o : AdminOptions) (engine : Engine) (s : Admin) : Event → Option Admin
  | .request req now => some (receive o { s with clock := now } req now)
  | .login k body sid now =>
      match s.logins[k]? with
      | some (.awaiting req) =>
          match body with
          -- the rejection is nobody's
          | none => some { s with up := false }
          | some token => some (login o { s with clock := now } k req token sid now)
      | _ => none
  | .body r json =>
      (RegistrarAdmin.step engine s.server (.body r json)).map fun server => { s with server }
  | .resume r outcome =>
      (RegistrarAdmin.step engine s.server (.resume r outcome)).map fun server =>
        { s with server }

def step (o : AdminOptions) (engine : Engine) (s : Admin) (e : Event) : Option Admin :=
  if s.up then stepUp o engine s e else none

/-- The clock does not go back. -/
def Chronological (s : Admin) : Event → Prop
  | .request _ now | .login _ _ _ now => s.clock ≤ now
  | _ => True

instance (s : Admin) : (e : Event) → Decidable (Chronological s e)
  | .request _ now => inferInstanceAs (Decidable (s.clock ≤ now))
  | .login _ _ _ now => inferInstanceAs (Decidable (s.clock ≤ now))
  | .body _ _ => instDecidableTrue
  | .resume _ _ => instDecidableTrue

/-! ## Who may come in -/

def Entry.sid : Entry → String
  | .issued sid _ _ => sid
  | .ended sid => sid

/-- The latest of what became of the session is that it was issued, until `expiry`. -/
def Live (log : List Entry) (sid : String) (expiry : ℤ) : Prop :=
  ∃ earlier provided later, log = earlier ++ .issued sid expiry provided :: later
    ∧ ∀ e ∈ later, e.sid ≠ sid

/-- A request has the token, or the cookie of a session that has not ended. -/
def Credential (o : AdminOptions) (a : Arrival) : Prop :=
  bearer a.req.authorization = some o.token
    ∨ ∃ sid expiry, sessionId a.req.cookie = some sid ∧ sid ≠ "" ∧ Live a.log sid expiry
      ∧ a.now < expiry

theorem live_append {log : List Entry} {e : Entry} {sid : String} {expiry : ℤ} :
    Live (log ++ [e]) sid expiry
      ↔ (∃ provided, e = .issued sid expiry provided) ∨ (e.sid ≠ sid ∧ Live log sid expiry) := by
  constructor
  · rintro ⟨earlier, provided, later, hlog, hlater⟩
    rcases List.eq_nil_or_concat' later with rfl | ⟨later, last, rfl⟩
    · obtain ⟨-, hlast⟩ := List.append_inj' hlog rfl
      cases hlast
      exact Or.inl ⟨provided, rfl⟩
    · have hsplit : log ++ [e] = (earlier ++ .issued sid expiry provided :: later) ++ [last] := by
        rw [hlog, List.append_assoc, List.cons_append]
      obtain ⟨hinit, hlast⟩ := List.append_inj' hsplit rfl
      cases hlast
      exact Or.inr ⟨hlater e (List.mem_append_right _ List.mem_cons_self), earlier, provided,
        later, hinit, fun e' he' => hlater e' (List.mem_append_left _ he')⟩
  · rintro (⟨provided, rfl⟩ | ⟨hne, earlier, provided, later, rfl, hlater⟩)
    · exact ⟨log, provided, [], rfl, fun e he => absurd he List.not_mem_nil⟩
    · refine ⟨earlier, provided, later ++ [e], by simp, fun e' he' => ?_⟩
      rcases List.mem_append.mp he' with he' | he'
      · exact hlater e' he'
      · rw [List.mem_singleton.mp he']
        exact hne

/-! ## A cookie that was set comes back -/

theorem trim_pad {lead body trail : List Char} (hlead : ∀ c ∈ lead, isSpace c = true)
    (hbody : ∀ c ∈ body, isSpace c = false) (htrail : ∀ c ∈ trail, isSpace c = true) :
    trim (String.ofList (lead ++ body ++ trail)) = String.ofList body := by
  have hdrop {l m : List Char} (hl : ∀ c ∈ l, isSpace c = true) :
      (l ++ m).dropWhile isSpace = m.dropWhile isSpace :=
    List.dropWhile_append_of_pos hl
  have hkeep {m : List Char} (hm : ∀ c ∈ m, isSpace c = false) : m.dropWhile isSpace = m := by
    cases m with
    | nil => rfl
    | cons c m => exact List.dropWhile_cons_of_neg (by rw [hm c List.mem_cons_self]; decide)
  unfold trim
  rw [String.toList_ofList, List.append_assoc, hdrop hlead]
  cases body with
  | nil =>
      have hall : trail.dropWhile isSpace = [] := List.dropWhile_eq_nil_iff.mpr htrail
      rw [List.nil_append, hall]
      rfl
  | cons c body =>
      have hc : (c :: body ++ trail).dropWhile isSpace = c :: body ++ trail :=
        List.dropWhile_cons_of_neg (by rw [hbody c List.mem_cons_self]; decide)
      have hback : (c :: body).reverse.dropWhile isSpace = (c :: body).reverse :=
        hkeep fun d hd => hbody d (List.mem_reverse.mp hd)
      rw [hc, List.reverse_append, hdrop fun d hd => htrail d (List.mem_reverse.mp hd), hback,
        List.reverse_reverse]

theorem hex_not_space (sid : SessionId) : ∀ c ∈ sid.hex.toList, isSpace c = false := by
  intro c hc
  have hall : ∀ c ∈ "0123456789abcdef".toList, 32 < c.toNat ∧ c.toNat < 128 := by simp
  obtain ⟨hlo, hhi⟩ := hall c (sid.digits c hc)
  exact isSpace_printable hlo hhi

theorem sessionCookie_chars : ∀ c ∈ sessionCookie.toList, isSpace c = false ∧ c ≠ '=' := by
  intro c hc
  have hall : ∀ c ∈ sessionCookie.toList, 32 < c.toNat ∧ c.toNat < 128 ∧ c ≠ '=' := by
    simp [sessionCookie]
  obtain ⟨hlo, hhi, hne⟩ := hall c hc
  exact ⟨isSpace_printable hlo hhi, hne⟩

/-- The pair a login sets, with white space around it. -/
theorem parsePart_pair {part : String} {lead trail : List Char} (sid : SessionId)
    (hlead : ∀ c ∈ lead, isSpace c = true) (htrail : ∀ c ∈ trail, isSpace c = true)
    (hpart : part.toList = lead ++ sessionCookie.toList ++ '=' :: (sid.hex.toList ++ trail)) :
    parsePart part = some (sessionCookie, sid.hex) := by
  have hname : ∀ c ∈ lead ++ sessionCookie.toList, decide (c ≠ '=') = true := by
    intro c hc
    rcases List.mem_append.mp hc with hc | hc
    · refine decide_eq_true fun heq => ?_
      have hspace := hlead c hc
      rw [heq, isSpace_printable (by decide) (by decide)] at hspace
      cases hspace
    · exact decide_eq_true (sessionCookie_chars c hc).2
  have hequals : '=' ∈ part.toList := by
    rw [hpart]
    exact List.mem_append_right _ List.mem_cons_self
  have htake : part.toList.takeWhile (· ≠ '=') = lead ++ sessionCookie.toList := by
    rw [hpart, List.takeWhile_append_of_pos hname]
    simp
  have hdrop : part.toList.dropWhile (· ≠ '=') = '=' :: (sid.hex.toList ++ trail) := by
    rw [hpart, List.dropWhile_append_of_pos hname]
    simp
  have hleft : trim (String.ofList (lead ++ sessionCookie.toList)) = sessionCookie := by
    have hpad := @trim_pad lead sessionCookie.toList [] hlead
      (fun c hc => (sessionCookie_chars c hc).1) nofun
    rwa [List.append_nil, String.ofList_toList] at hpad
  have hright : trim (String.ofList (sid.hex.toList ++ trail)) = sid.hex := by
    have hpad := @trim_pad [] sid.hex.toList trail nofun (hex_not_space sid) htrail
    rwa [List.nil_append, String.ofList_toList] at hpad
  unfold parsePart
  rw [if_pos hequals, htake, hdrop, hleft, List.tail_cons, hright]

/-- The `Cookie` header has the pair a login set, with white space around it and among
    whatever other cookies, of which no later one has its name. -/
structure Sends (req : HttpRequest) (sid : SessionId) where
  header : String
  before : List String
  part : String
  after : List String
  lead : List Char
  trail : List Char
  cookie : req.cookie = some header
  split_header : split ';' header = before ++ part :: after
  lead_space : ∀ c ∈ lead, isSpace c = true
  trail_space : ∀ c ∈ trail, isSpace c = true
  pair : part.toList = lead ++ sessionCookie.toList ++ '=' :: (sid.hex.toList ++ trail)
  last : ∀ c ∈ after.filterMap parsePart, c.1 ≠ sessionCookie

/-- The server reads the session it issued. -/
theorem sessionId_sent {req : HttpRequest} {sid : SessionId} (h : Sends req sid) :
    sessionId req.cookie = some sid.hex := by
  have hpair := parsePart_pair sid h.lead_space h.trail_space h.pair
  have hskip : (h.after.filterMap parsePart).reverse.find? (fun c => c.1 = sessionCookie)
      = none := by
    refine List.find?_eq_none.mpr fun c hc => ?_
    rw [decide_eq_true_eq]
    exact h.last c (List.mem_reverse.mp hc)
  unfold sessionId parseCookies
  rw [h.cookie, Option.getD_some, h.split_header, List.filterMap_append,
    List.filterMap_cons_some hpair, List.reverse_append, List.reverse_cons, List.append_assoc,
    List.find?_append, hskip, Option.none_or]
  rfl

/-- A request that sends a live session has a credential. -/
theorem credential_sent {o : AdminOptions} {a : Arrival} {sid : SessionId} {expiry : ℤ}
    (h : Sends a.req sid) (hlive : Live a.log sid.hex expiry) (hnow : a.now < expiry) :
    Credential o a := by
  refine Or.inr ⟨sid.hex, expiry, sessionId_sent h, fun hempty => ?_, hlive, hnow⟩
  have hlength := sid.length
  rw [hempty] at hlength
  exact nomatch hlength

/-! ## The sessions -/

/-- The sessions in memory are live, and those that are live are in memory or expired. -/
structure Sessions (log : List Entry) (sessions : String → Option ℤ) (clock : ℤ) : Prop where
  sound : ∀ sid expiry, sessions sid = some expiry → Live log sid expiry
  kept : ∀ sid expiry, Live log sid expiry → sessions sid = some expiry ∨ expiry ≤ clock

section Sessions

variable {log : List Entry} {sessions : String → Option ℤ} {clock now : ℤ}

theorem Sessions.later (h : Sessions log sessions clock) (hle : clock ≤ now) :
    Sessions log sessions now where
  sound := h.sound
  kept sid expiry hlive := (h.kept sid expiry hlive).imp_right (·.trans hle)

theorem Sessions.sweep (h : Sessions log sessions clock) {sid : String} {expiry : ℤ}
    (hsid : sessions sid = some expiry) (hle : expiry ≤ clock) :
    Sessions log (Function.update sessions sid none) clock where
  sound sid' expiry' hsome := by
    by_cases heq : sid' = sid
    · rw [heq, Function.update_self] at hsome
      cases hsome
    · rw [Function.update_of_ne heq] at hsome
      exact h.sound sid' expiry' hsome
  kept sid' expiry' hlive := by
    by_cases heq : sid' = sid
    · rcases h.kept sid' expiry' hlive with hsome | hle'
      · rw [heq, hsid] at hsome
        cases hsome
        exact Or.inr hle
      · exact Or.inr hle'
    · rw [Function.update_of_ne heq]
      exact h.kept sid' expiry' hlive

theorem Sessions.end (h : Sessions log sessions clock) (sid : String) :
    Sessions (log ++ [.ended sid]) (Function.update sessions sid none) clock where
  sound sid' expiry hsome := by
    by_cases heq : sid' = sid
    · rw [heq, Function.update_self] at hsome
      cases hsome
    · rw [Function.update_of_ne heq] at hsome
      exact live_append.mpr (Or.inr ⟨Ne.symm heq, h.sound sid' expiry hsome⟩)
  kept sid' expiry hlive := by
    rcases live_append.mp hlive with ⟨provided, heq⟩ | ⟨hne, hlive⟩
    · cases heq
    · have hne : sid ≠ sid' := hne
      rw [Function.update_of_ne (Ne.symm hne)]
      exact h.kept sid' expiry hlive

theorem Sessions.issue (h : Sessions log sessions clock) (sid : String) (expiry : ℤ)
    (provided : String) : Sessions (log ++ [.issued sid expiry provided])
      (Function.update sessions sid (some expiry)) clock where
  sound sid' expiry' hsome := by
    by_cases heq : sid' = sid
    · rw [heq, Function.update_self] at hsome
      cases hsome
      rw [heq]
      exact live_append.mpr (Or.inl ⟨provided, rfl⟩)
    · rw [Function.update_of_ne heq] at hsome
      exact live_append.mpr (Or.inr ⟨Ne.symm heq, h.sound sid' expiry' hsome⟩)
  kept sid' expiry' hlive := by
    rcases live_append.mp hlive with ⟨provided', heq⟩ | ⟨hne, hlive⟩
    · cases heq
      exact Or.inl (Function.update_self ..)
    · have hne : sid ≠ sid' := hne
      rw [Function.update_of_ne (Ne.symm hne)]
      exact h.kept sid' expiry' hlive

end Sessions

/-! ## The gate -/

section Gate

variable {o : AdminOptions} {s : Admin} {req : HttpRequest} {path : Path} {now : ℤ}

/-- The cookie of a request names a session. -/
theorem cookie_some {sid : String}
    (h : (sessionId req.cookie).filter (fun sid => decide (sid ≠ "")) = some sid) :
    sessionId req.cookie = some sid ∧ sid ≠ "" := by
  obtain ⟨hcookie, hne⟩ := Option.filter_eq_some_iff.mp h
  exact ⟨hcookie, of_decide_eq_true hne⟩

theorem cookie_none {sid : String}
    (h : (sessionId req.cookie).filter (fun sid => decide (sid ≠ "")) = none)
    (hsid : sessionId req.cookie = some sid) : sid = "" := by
  by_contra hne
  rw [hsid, Option.filter_some, if_pos (decide_eq_true hne)] at h
  cases h

/-- The session of the cookie is live exactly where `#sessionOk` says so. -/
theorem sessionOk_iff (h : Sessions s.log s.sessions now) :
    ((sessionOk s req now).1 = true ↔ ∃ sid expiry, sessionId req.cookie = some sid ∧ sid ≠ ""
        ∧ Live s.log sid expiry ∧ now < expiry)
      ∧ Sessions s.log (sessionOk s req now).2 now := by
  unfold sessionOk
  cases hcookie : (sessionId req.cookie).filter (fun sid => decide (sid ≠ "")) with
  | none =>
      refine ⟨⟨fun hfalse => (nomatch hfalse), ?_⟩, h⟩
      rintro ⟨sid, expiry, hsid, hne, -, -⟩
      exact absurd (cookie_none hcookie hsid) hne
  | some sid =>
      obtain ⟨hsid, hne⟩ := cookie_some hcookie
      simp only []
      cases hsession : s.sessions sid with
      | none =>
          refine ⟨⟨fun hfalse => (nomatch hfalse), ?_⟩, h⟩
          rintro ⟨sid', expiry, hsid', -, hlive, hlt⟩
          rw [hsid] at hsid'
          cases hsid'
          rcases h.kept sid expiry hlive with hsome | hle
          · rw [hsession] at hsome
            cases hsome
          · exact absurd hlt (not_lt.mpr hle)
      | some expiry =>
          simp only []
          by_cases hexpired : expiry ≤ now
          · simp only [if_pos hexpired]
            refine ⟨⟨fun hfalse => (nomatch hfalse), ?_⟩, h.sweep hsession hexpired⟩
            rintro ⟨sid', expiry', hsid', -, hlive, hlt⟩
            rw [hsid] at hsid'
            cases hsid'
            rcases h.kept sid expiry' hlive with hsome | hle
            · rw [hsession] at hsome
              cases hsome
              exact absurd hlt (not_lt.mpr hexpired)
            · exact absurd hlt (not_lt.mpr hle)
          · simp only [if_neg hexpired]
            refine ⟨⟨fun _ => ?_, fun _ => trivial⟩, h⟩
            exact ⟨sid, expiry, hsid, hne, h.sound sid expiry hsession, not_le.mp hexpired⟩

theorem authorized_iff (h : Sessions s.log s.sessions now) :
    ((authorized o s req now).1 = true ↔ Credential o ⟨req, path, now, s.log⟩)
      ∧ Sessions s.log (authorized o s req now).2 now := by
  unfold authorized bearerOk Credential
  by_cases hbearer : bearer req.authorization = some o.token
  · rw [if_pos (decide_eq_true hbearer)]
    exact ⟨⟨fun _ => Or.inl hbearer, fun _ => rfl⟩, h⟩
  · rw [if_neg (fun hok => hbearer (of_decide_eq_true hok))]
    obtain ⟨hiff, hsessions⟩ := @sessionOk_iff s req now h
    refine ⟨hiff.trans ⟨Or.inr, fun hor => hor.resolve_left hbearer⟩, hsessions⟩

/-! ## The requests -/

/-- The shell is answered without a question; another request is refused exactly without a
    credential. -/
def Gated (o : AdminOptions) (a : Arrival) (p : Phase) : Prop :=
  (Shell a.req a.path → p = .answered { status := 200 })
    ∧ (¬ Shell a.req a.path → (p = .answered unauthorized ↔ ¬ Credential o a))

theorem route_shell {maintenance : Bool} {r : Request}
    (h : r.method = .get ∧ r.path = .dashboard) :
    route maintenance r = .answered { status := 200 } := by
  unfold route
  rw [if_pos h]

theorem route_unauthorized {maintenance : Bool} {r : Request}
    (h : ¬ (r.method = .get ∧ r.path = .dashboard)) :
    route maintenance r = .answered unauthorized ↔ r.authorized = false := by
  unfold route
  rw [if_neg h]
  by_cases hauthorized : r.authorized = false
  · rw [if_pos hauthorized]
    exact ⟨fun _ => hauthorized, fun _ => rfl⟩
  · rw [if_neg hauthorized]
    refine ⟨fun hroute => ?_, fun hfalse => absurd hfalse hauthorized⟩
    cases hpath : r.path with
    | issuances id =>
        simp only [hpath] at hroute
        split at hroute
        · cases hroute
        · split at hroute <;> cases hroute
    | dashboard =>
        simp only [hpath] at hroute
        cases hroute
    | elsewhere =>
        simp only [hpath] at hroute
        cases hroute

/-- What a handler that goes on does: the request is past the gate, and is not sent back
    to it. -/
structure GoesOn (s t : Server) (r : ℕ) : Prop where
  requests : ∃ p q, s.requests[r]? = some p ∧ t.requests = s.requests.set r q
    ∧ (∀ answer, p ≠ .answered answer) ∧ q ≠ .answered unauthorized
  hooks : ∀ h ∈ t.hooks, h ∈ s.hooks ∨ h.1 = r
  purges : ∀ k ∈ t.committed, k ∈ s.committed ∨ k = r

theorem goesOn_move {s : Server} {r : ℕ} {p q : Phase} (hr : s.requests[r]? = some p)
    (hp : ∀ answer, p ≠ .answered answer) (hq : q ≠ .answered unauthorized) :
    GoesOn s (s.move r q) r where
  requests := ⟨p, q, hr, rfl, hp, hq⟩
  hooks _ h := Or.inl h
  purges _ h := Or.inl h

theorem goesOn_finish {s : Server} {r : ℕ} {p : Phase} {purged : Bool} {answer : Answer}
    (hr : s.requests[r]? = some p) (hp : ∀ answer, p ≠ .answered answer)
    (hanswer : answer ≠ unauthorized) : GoesOn s (s.finish r purged answer) r where
  requests := ⟨p, .answered answer, hr, rfl, hp, fun heq => hanswer (Phase.answered.inj heq)⟩
  hooks _ h := by
    rcases List.mem_append.mp h with h | h
    · exact Or.inl h
    · rw [List.mem_singleton.mp h]
      exact Or.inr rfl
  purges _ h := Or.inl h

theorem answered_ne {answer : Answer} (h : answer ≠ unauthorized) :
    Phase.answered answer ≠ .answered unauthorized :=
  fun heq => h (Phase.answered.inj heq)

theorem goesOn_of_resume {engine : Engine} {s t : Server} {r : ℕ} {p : Phase} {outcome : Outcome}
    (hr : s.requests[r]? = some p) (h : resume engine s r p outcome = some t) :
    GoesOn s t r := by
  have hmissing : notFound ≠ unauthorized := by decide
  have hbad : badRequest ≠ unauthorized := by decide
  have hdone : ({ status := 200 } : Answer) ≠ unauthorized := by decide
  cases p with
  | fetching =>
      cases outcome with
      | ok => cases h; exact goesOn_move hr nofun (answered_ne hdone)
      | missing => cases h; exact goesOn_move hr nofun (answered_ne hmissing)
      | failed => cases h; exact goesOn_move hr nofun (answered_ne hbad)
      | lost => cases h; exact goesOn_move hr nofun (answered_ne hbad)
  | reading route => exact nomatch h
  | registering issuance =>
      cases issuance with
      | error message =>
          cases h
          refine goesOn_move hr nofun (answered_ne fun heq => ?_)
          have hstatus : 400 = 401 := congrArg Answer.status heq
          cases hstatus
      | ok row =>
          cases outcome with
          | ok =>
              cases h
              refine ⟨⟨_, _, hr, rfl, nofun, answered_ne (by decide)⟩, fun e he => ?_,
                fun k hk => Or.inl hk⟩
              rcases List.mem_append.mp he with he | he
              · exact Or.inl he
              · rw [List.mem_singleton.mp he]
                exact Or.inr rfl
          | missing => cases h; exact goesOn_move hr nofun (answered_ne hbad)
          | failed => cases h; exact goesOn_move hr nofun (answered_ne hbad)
          | lost => cases h; exact goesOn_move hr nofun (answered_ne hbad)
  | toggling id enabled =>
      cases outcome with
      | ok => cases h; exact goesOn_move hr nofun nofun
      | missing => cases h; exact goesOn_move hr nofun (answered_ne hmissing)
      | failed => cases h; exact goesOn_move hr nofun (answered_ne hbad)
      | lost => cases h; exact goesOn_move hr nofun (answered_ne hbad)
  | updating id enabled =>
      cases outcome with
      | ok => cases h; exact goesOn_move hr nofun (answered_ne hdone)
      | missing => cases h; exact goesOn_move hr nofun (answered_ne hbad)
      | failed => cases h; exact goesOn_move hr nofun (answered_ne hbad)
      | lost => cases h; exact goesOn_move hr nofun (answered_ne hbad)
  | quiescing id =>
      cases outcome with
      | ok => cases h; exact goesOn_move hr nofun nofun
      | missing => cases h; exact goesOn_finish hr nofun hbad
      | failed => cases h; exact goesOn_finish hr nofun hbad
      | lost => cases h; exact goesOn_finish hr nofun hbad
  | lookingUp id =>
      cases outcome with
      | ok => cases h; exact goesOn_move hr nofun nofun
      | missing => cases h; exact goesOn_finish hr nofun hmissing
      | failed => cases h; exact goesOn_finish hr nofun hbad
      | lost => cases h; exact goesOn_finish hr nofun hbad
  | listing id =>
      cases outcome with
      | ok => cases h; exact goesOn_move hr nofun nofun
      | missing => cases h; exact goesOn_finish hr nofun hbad
      | failed => cases h; exact goesOn_finish hr nofun hbad
      | lost => cases h; exact goesOn_finish hr nofun hbad
  | purging id =>
      cases outcome with
      | ok =>
          cases h
          refine ⟨⟨_, _, hr, rfl, nofun, nofun⟩, fun e he => Or.inl he, fun k hk => ?_⟩
          rcases List.mem_append.mp hk with hk | hk
          · rcases List.mem_append.mp hk with hk | hk
            · exact Or.inl (List.mem_append_left _ hk)
            · exact Or.inr (List.mem_singleton.mp hk)
          · exact Or.inl (List.mem_append_right _ hk)
      | missing => cases h; exact goesOn_finish hr nofun hbad
      | failed => cases h; exact goesOn_finish hr nofun hbad
      | lost =>
          cases h
          obtain ⟨hrequests, hhooks, -⟩ :=
            @goesOn_finish s r (.purging id) false badRequest hr nofun hbad
          refine ⟨hrequests, hhooks, fun k hk => ?_⟩
          rcases List.mem_append.mp hk with hk | hk
          · exact Or.inl (List.mem_append_left _ hk)
          · rcases List.mem_append.mp hk with hk | hk
            · exact Or.inl (List.mem_append_right _ hk)
            · exact Or.inr (List.mem_singleton.mp hk)
  | vacuuming id statements =>
      match statements, outcome, h with
      | _ :: _ :: _, .missing, h => cases h; exact goesOn_move hr nofun nofun
      | _ :: _ :: _, .failed, h => cases h; exact goesOn_move hr nofun nofun
      | _ :: _ :: _, .lost, h => cases h; exact goesOn_move hr nofun nofun
      | _ :: _ :: _, .ok, h => cases h; exact goesOn_finish hr nofun hdone
      | [_], .ok, h => cases h; exact goesOn_finish hr nofun hdone
      | [_], .missing, h => cases h; exact goesOn_finish hr nofun hdone
      | [_], .failed, h => cases h; exact goesOn_finish hr nofun hdone
      | [_], .lost, h => cases h; exact goesOn_finish hr nofun hdone
      | [], .ok, h => cases h; exact goesOn_finish hr nofun hdone
      | [], .missing, h => cases h; exact goesOn_finish hr nofun hdone
      | [], .failed, h => cases h; exact goesOn_finish hr nofun hdone
      | [], .lost, h => cases h; exact goesOn_finish hr nofun hdone
  | answered answer => exact nomatch h

theorem readBody_ne (route : Route) (json : Option Body) :
    readBody route json ≠ .answered unauthorized := by
  cases json with
  | none => exact answered_ne (by decide)
  | some body =>
      cases route with
      | register =>
          intro h
          cases h
      | toggle id =>
          simp only [readBody]
          cases body.enabled with
          | none => exact answered_ne (by decide)
          | some enabled =>
              intro h
              cases h

theorem goesOn_of_body {engine : Engine} {s t : Server} {r : ℕ} {json : Option Body}
    (h : RegistrarAdmin.step engine s (.body r json) = some t) : GoesOn s t r := by
  cases hr : s.requests[r]? with
  | none =>
      simp only [RegistrarAdmin.step, hr] at h
      cases h
  | some p =>
      cases p with
      | reading route =>
          simp only [RegistrarAdmin.step, hr] at h
          cases h
          refine goesOn_move hr (fun answer h => ?_) (readBody_ne route json)
          cases h
      | _ =>
          simp only [RegistrarAdmin.step, hr] at h
          cases h

/-! ## Runs -/

def Admitted (o : AdminOptions) (a : Arrival) : Prop := ¬ Shell a.req a.path ∧ Credential o a

/-- What every event keeps. -/
structure Inv (o : AdminOptions) (s : Admin) : Prop where
  sessions : Sessions s.log s.sessions s.clock
  provided : ∀ sid expiry token, .issued sid expiry token ∈ s.log → token = o.token
  length : s.arrivals.length = s.server.requests.length
  gate : ∀ (r : ℕ) (a : Arrival) (p : Phase), s.arrivals[r]? = some a →
    s.server.requests[r]? = some p → Gated o a p
  logs : ∀ a ∈ s.arrivals, a.log <+: s.log
  hooks : ∀ h ∈ s.server.hooks, ∃ a : Arrival, s.arrivals[h.1]? = some a ∧ Admitted o a
  purges : ∀ r ∈ s.server.committed, ∃ a : Arrival, s.arrivals[r]? = some a ∧ Admitted o a

/-- A phase that goes on is an admitted request's. -/
theorem Gated.admitted {a : Arrival} {p : Phase} (h : Gated o a p)
    (hp : ∀ answer, p ≠ .answered answer) : Admitted o a := by
  have hshell : ¬ Shell a.req a.path := fun hshell => hp _ (h.1 hshell)
  refine ⟨hshell, ?_⟩
  by_contra hnone
  exact hp _ ((h.2 hshell).mpr hnone)

theorem Inv.goesOn (h : Inv o s) {server : Server} {r : ℕ} (hgoes : GoesOn s.server server r) :
    Inv o { s with server } := by
  obtain ⟨p, q, hr, hrequests, hp, hq⟩ := hgoes.requests
  have hlt : r < s.server.requests.length := (List.getElem?_eq_some_iff.mp hr).1
  obtain ⟨a, ha⟩ : ∃ a, s.arrivals[r]? = some a := by
    rw [← h.length] at hlt
    exact ⟨_, List.getElem?_eq_getElem hlt⟩
  have hadmitted : Admitted o a := (h.gate r a p ha hr).admitted hp
  refine {
    sessions := h.sessions
    provided := h.provided
    length := by
      show s.arrivals.length = server.requests.length
      rw [hrequests, List.length_set]
      exact h.length
    gate := fun r' a' p' ha' hp' => ?_
    logs := h.logs
    hooks := fun e he => ?_
    purges := fun k hk => ?_ }
  · have hp' : server.requests[r']? = some p' := hp'
    rw [hrequests] at hp'
    by_cases heq : r' = r
    · rw [heq] at ha' hp'
      have haa : a' = a := Option.some.inj (ha'.symm.trans ha)
      rw [List.getElem?_set_self hlt] at hp'
      cases hp'
      rw [haa]
      exact ⟨fun hshell => absurd hshell hadmitted.1,
        fun _ => ⟨fun hunauthorized => absurd hunauthorized hq,
          fun hnone => absurd hadmitted.2 hnone⟩⟩
    · rw [List.getElem?_set_ne (Ne.symm heq)] at hp'
      exact h.gate r' a' p' ha' hp'
  · rcases hgoes.hooks e he with he | he
    · exact h.hooks e he
    · rw [he]
      exact ⟨a, ha, hadmitted⟩
  · rcases hgoes.purges k hk with hk | hk
    · exact h.purges k hk
    · rw [hk]
      exact ⟨a, ha, hadmitted⟩

theorem arrive_effect (server : Server) (r : Request) :
    (arrive server r).requests = server.requests ++ [route server.maintenance r]
      ∧ (arrive server r).committed = server.committed
      ∧ ∀ h ∈ (arrive server r).hooks, h ∈ server.hooks ∨ (h.1 = server.requests.length
        ∧ ∃ id, route server.maintenance r = .quiescing id) := by
  by_cases hperiod : (route server.maintenance r).inPeriod = true
  · obtain ⟨-, id, hroute⟩ := route_inPeriod hperiod
    rw [arrive_delete hroute, hroute]
    refine ⟨rfl, rfl, fun h hh => ?_⟩
    rcases List.mem_append.mp hh with hh | hh
    · exact Or.inl hh
    · rw [List.mem_singleton.mp hh]
      exact Or.inr ⟨rfl, id, rfl⟩
  · rw [arrive_eq (Bool.eq_false_iff.mpr hperiod)]
    exact ⟨rfl, rfl, fun h hh => Or.inl hh⟩

/-- The gate of a request that is not for the session endpoints. -/
theorem comeToGate_gated (h : Sessions s.log s.sessions now) (maintenance : Bool) :
    let gate := if Shell req path then (false, s.sessions) else authorized o s req now
    Gated o ⟨req, path, now, s.log⟩ (route maintenance ⟨req.method, path, gate.1⟩)
      ∧ Sessions s.log gate.2 now := by
  by_cases hshell : Shell req path
  · simp only [if_pos hshell]
    exact ⟨⟨fun _ => route_shell hshell, fun hnot => absurd hshell hnot⟩, h⟩
  · simp only [if_neg hshell]
    obtain ⟨hiff, hsessions⟩ := @authorized_iff o s req path now h
    refine ⟨⟨fun hs => absurd hs hshell, fun _ => ?_⟩, hsessions⟩
    have hroute := @route_unauthorized maintenance
      ⟨req.method, path, (authorized o s req now).1⟩ hshell
    rw [hroute, ← hiff, Bool.not_eq_true]

theorem Inv.comeToGate (h : Inv o s) (hclock : s.clock = now) :
    Inv o (comeToGate o s req now path) := by
  obtain ⟨hgated, hsessions⟩ := @comeToGate_gated o s req path now (hclock ▸ h.sessions)
    s.server.maintenance
  unfold RegistrarSessions.comeToGate
  generalize hgate :
    (if Shell req path then (false, s.sessions) else authorized o s req now) = gate
    at hgated hsessions
  obtain ⟨hrequests, hpurges, hhooks⟩ := arrive_effect s.server ⟨req.method, path, gate.1⟩
  have hnew : (s.arrivals ++ [⟨req, path, now, s.log⟩])[s.server.requests.length]?
      = some ⟨req, path, now, s.log⟩ := by
    rw [← h.length]
    exact List.getElem?_concat_length
  have hold {r : ℕ} {a : Arrival} (ha : s.arrivals[r]? = some a) :
      (s.arrivals ++ [⟨req, path, now, s.log⟩])[r]? = some a := by
    rw [List.getElem?_append_left (List.getElem?_eq_some_iff.mp ha).1]
    exact ha
  refine {
    sessions := by
      show Sessions s.log gate.2 s.clock
      rw [hclock]
      exact hsessions
    provided := h.provided
    length := by
      show (s.arrivals ++ [_]).length = (arrive s.server _).requests.length
      rw [hrequests, List.length_append, List.length_append, h.length]
      rfl
    gate := fun r a p ha hp => ?_
    logs := fun a ha => ?_
    hooks := fun e he => ?_
    purges := fun k hk => ?_ }
  · have hp : (arrive s.server _).requests[r]? = some p := hp
    have ha : (s.arrivals ++ [⟨req, path, now, s.log⟩])[r]? = some a := ha
    rw [hrequests] at hp
    rcases Nat.lt_trichotomy r s.server.requests.length with hlt | heq | hgt
    · rw [List.getElem?_append_left hlt] at hp
      rw [List.getElem?_append_left (h.length ▸ hlt)] at ha
      exact h.gate r a p ha hp
    · rw [heq, List.getElem?_concat_length] at hp
      rw [heq, hnew] at ha
      cases hp
      cases ha
      exact hgated
    · have hout : (s.server.requests
          ++ [route s.server.maintenance ⟨req.method, path, gate.1⟩]).length ≤ r := by
        rw [List.length_append]
        exact hgt
      rw [List.getElem?_eq_none hout] at hp
      cases hp
  · rcases List.mem_append.mp ha with ha | ha
    · exact h.logs a ha
    · rw [List.mem_singleton.mp ha]
  · rcases hhooks e he with he | ⟨hindex, id, hroute⟩
    · obtain ⟨a, ha, hadmitted⟩ := h.hooks e he
      exact ⟨a, hold ha, hadmitted⟩
    · refine ⟨⟨req, path, now, s.log⟩, ?_, hgated.admitted fun answer heq => ?_⟩
      · show (s.arrivals ++ [_])[e.1]? = _
        rw [hindex]
        exact hnew
      · rw [hroute] at heq
        cases heq
  · have hk : k ∈ s.server.committed := hpurges ▸ hk
    obtain ⟨a, ha, hadmitted⟩ := h.purges k hk
    exact ⟨a, hold ha, hadmitted⟩

theorem Inv.later (h : Inv o s) (hle : s.clock ≤ now) : Inv o { s with clock := now } :=
  { h with sessions := h.sessions.later hle }

/-- Something becomes of a session. -/
theorem Inv.record (h : Inv o s) {entry : Entry} {sessions : String → Option ℤ}
    (hsessions : Sessions (s.log ++ [entry]) sessions s.clock)
    (hprovided : ∀ sid expiry token, entry = .issued sid expiry token → token = o.token)
    (logins : List Login) : Inv o { s with sessions, logins, log := s.log ++ [entry] } where
  sessions := hsessions
  provided sid expiry token hin := by
    rcases List.mem_append.mp hin with hin | hin
    · exact h.provided sid expiry token hin
    · exact hprovided sid expiry token (List.mem_singleton.mp hin).symm
  length := h.length
  gate := h.gate
  logs a ha := (h.logs a ha).trans (List.prefix_append _ _)
  hooks := h.hooks
  purges := h.purges

theorem Inv.logout (h : Inv o s) : Inv o (logout s req) := by
  unfold RegistrarSessions.logout
  cases (sessionId req.cookie).filter (fun sid => decide (sid ≠ "")) with
  | none => exact h
  | some sid => exact h.record (h.sessions.end sid) (fun _ _ _ heq => by cases heq) s.logins

theorem Inv.receive (h : Inv o s) (hclock : s.clock = now) : Inv o (receive o s req now) := by
  unfold RegistrarSessions.receive
  cases endpoint req with
  | malformed => exact { h with }
  | login => exact { h with }
  | logout => exact h.logout
  | admin path => exact h.comeToGate hclock

theorem Inv.login (h : Inv o s) (k : ℕ) (token : Option String) (sid : SessionId) :
    Inv o (login o s k req token sid now) := by
  unfold RegistrarSessions.login
  by_cases hrefused : RegistrarSessions.provided req token = ""
      ∨ RegistrarSessions.provided req token ≠ o.token
  · rw [if_pos hrefused]
    exact { h with }
  · rw [if_neg hrefused]
    have htoken : RegistrarSessions.provided req token = o.token := by
      by_contra hne
      exact hrefused (Or.inr hne)
    refine h.record (h.sessions.issue _ _ _) (fun _ _ t heq => ?_) _
    cases heq
    exact htoken

/-- **THE STEP LEMMA.** -/
theorem Inv.step {engine : Engine} {t : Admin} {e : Event} (h : Inv o s)
    (hclock : Chronological s e) (hstep : step o engine s e = some t) : Inv o t := by
  unfold RegistrarSessions.step at hstep
  obtain ⟨-, hstep⟩ := Option.ite_none_right_eq_some.mp hstep
  cases e with
  | request req now =>
      cases hstep
      exact (h.later hclock).receive rfl
  | login k body sid now =>
      unfold stepUp at hstep
      cases hlogin : s.logins[k]? with
      | none =>
          simp only [hlogin] at hstep
          cases hstep
      | some l =>
          cases l with
          | awaiting req =>
              simp only [hlogin] at hstep
              cases body with
              | none =>
                  cases hstep
                  exact { h with }
              | some token =>
                  cases hstep
                  exact (h.later hclock).login k token sid
          | _ =>
              simp only [hlogin] at hstep
              cases hstep
  | body r json =>
      obtain ⟨server, hserver, rfl⟩ := Option.map_eq_some_iff.mp hstep
      exact h.goesOn (goesOn_of_body hserver)
  | resume r outcome =>
      obtain ⟨server, hserver, rfl⟩ := Option.map_eq_some_iff.mp hstep
      obtain ⟨p, hr, hresume⟩ := Option.bind_eq_some_iff.mp hserver
      exact h.goesOn (goesOn_of_resume hr hresume)

theorem not_live_nil {sid : String} {expiry : ℤ} : ¬ Live [] sid expiry := by
  rintro ⟨earlier, provided, later, hlog, -⟩
  have hmem : Entry.issued sid expiry provided ∈ ([] : List Entry) := by
    rw [hlog]
    exact List.mem_append_right _ List.mem_cons_self
  exact absurd hmem List.not_mem_nil

theorem inv_start (o : AdminOptions) : Inv o {} where
  sessions :=
    { sound := fun _ _ h => nomatch h
      kept := fun _ _ h => absurd h not_live_nil }
  provided _ _ _ h := nomatch h
  length := rfl
  gate _ _ _ h := nomatch h
  logs _ h := nomatch h
  hooks _ h := nomatch h
  purges _ h := nomatch h

/-- The server behind the gate runs as one without. -/
theorem server_run {engine : Engine} {t : Admin}
    (h : Steps (step o engine) Chronological {} t) :
    Steps (RegistrarAdmin.step engine) anyStep {} t.server := by
  refine h.project (·.server) (fun _ => True) (fun _ _ _ _ _ _ => trivial) ?_ trivial
  intro s e t _ _ hstep
  obtain ⟨-, hstep⟩ := Option.ite_none_right_eq_some.mp hstep
  cases e with
  | request req now =>
      cases hstep
      unfold receive
      cases endpoint req with
      | malformed => exact Or.inl rfl
      | login => exact Or.inl rfl
      | logout =>
          refine Or.inl ?_
          unfold logout
          cases (sessionId req.cookie).filter (fun sid => decide (sid ≠ "")) with
          | none => rfl
          | some sid => rfl
      | admin path => exact Or.inr ⟨.arrive _, trivial, rfl⟩
  | login k body sid now =>
      refine Or.inl ?_
      unfold stepUp at hstep
      cases hlogin : s.logins[k]? with
      | none =>
          simp only [hlogin] at hstep
          cases hstep
      | some l =>
          cases l with
          | awaiting req =>
              simp only [hlogin] at hstep
              cases body with
              | none =>
                  cases hstep
                  rfl
              | some token =>
                  cases hstep
                  unfold login
                  split <;> rfl
          | _ =>
              simp only [hlogin] at hstep
              cases hstep
  | body r json =>
      obtain ⟨server, hserver, rfl⟩ := Option.map_eq_some_iff.mp hstep
      exact Or.inr ⟨.body r json, trivial, hserver⟩
  | resume r outcome =>
      obtain ⟨server, hserver, rfl⟩ := Option.map_eq_some_iff.mp hstep
      exact Or.inr ⟨.resume r outcome, trivial, hserver⟩

/-- **THE GATE IS EXACT**, in every run of the admin server: but for the page without data, a
    request is refused exactly if it has neither the token nor the cookie of a session issued
    for the token, not logged out of and not expired; the cookie a login set is such a one,
    whatever comes with it.  A request whose URL does not parse is answered 400 and does
    nothing.  Nothing is purged, and no hook called, for a request without a credential; and
    the lock is as exact behind the gate as without one. -/
theorem gate_exact {engine : Engine} (h : Steps (step o engine) Chronological {} s) :
    (∀ (r : ℕ) (a : Arrival) (p : Phase), s.arrivals[r]? = some a →
        s.server.requests[r]? = some p → Gated o a p ∧ a.log <+: s.log
          ∧ ∀ sid expiry, Sends a.req sid → Live a.log sid.hex expiry → a.now < expiry →
            p ≠ .answered unauthorized)
      ∧ (∀ req now, req.pathname = none →
        receive o s req now = { s with malformed := s.malformed ++ [(req, badRequest)] })
      ∧ (∀ r, (r ∈ s.server.committed ∨ ∃ hook, (r, hook) ∈ s.server.hooks) →
        ∃ a : Arrival, s.arrivals[r]? = some a ∧ ¬ Shell a.req a.path ∧ Credential o a)
      ∧ (∀ sid expiry token, .issued sid expiry token ∈ s.log → token = o.token)
      ∧ LockExact s.server := by
  have hinv : Inv o s := h.inv (Inv o) (inv_start o) fun _ _ _ hu hok hs => hu.step hok hs
  refine ⟨fun r a p ha hp => ?_, fun req now hnone => ?_, fun r hr => ?_, hinv.provided,
    (locked_run (server_run h)).lock⟩
  · have hgated := hinv.gate r a p ha hp
    refine ⟨hgated, hinv.logs a (List.mem_of_getElem? ha), fun sid expiry hsent hlive hnow => ?_⟩
    intro hrefused
    have hcredential : Credential o a := credential_sent hsent hlive hnow
    by_cases hshell : Shell a.req a.path
    · rw [hgated.1 hshell] at hrefused
      exact absurd hrefused (answered_ne (by decide))
    · exact (hgated.2 hshell).mp hrefused hcredential
  · unfold receive endpoint
    rw [hnone]
    rfl
  · rcases hr with hr | ⟨hook, hr⟩
    · exact hinv.purges r hr
    · exact hinv.hooks (r, hook) hr

end Gate

/-- A session of the admin with the token `secret`. -/
def secretOptions : AdminOptions where
  token := "secret"
  token_ne_empty := by decide

def zeroSession : SessionId where
  hex := String.ofList (List.replicate 64 '0')
  length := by simp
  digits c hc := by
    rw [String.toList_ofList] at hc
    rw [List.eq_of_mem_replicate hc]
    simp

/-- A login, a target `//`, and with the cookie of the login a DELETE that purges. -/
def loginAndDelete : List Event :=
  [.request { method := .post, pathname := some "/admin/login" } 1,
    .request { method := .get, pathname := none } 1,
    .login 0 (some (some "secret")) zeroSession 2,
    .request
      { method := .delete, pathname := some "/admin/issuances/1"
        cookie := some ("theme=dark; adm_session=" ++ zeroSession.hex) } 3,
    .resume 0 .ok, .resume 0 .ok, .resume 0 .ok, .resume 0 .ok]

theorem gate_exact_delete : ∃ s : Admin, s.server.purges = [0]
    ∧ s.malformed.map (·.2.status) = [400]
    ∧ ∃ a : Arrival, s.arrivals[0]? = some a ∧ ¬ Shell a.req a.path
      ∧ Credential secretOptions a := by
  have hrun : (runChecked (step secretOptions .postgres) Chronological {} loginAndDelete).map
      (fun s => (s.server.purges, s.malformed.map (·.2.status))) = some ([0], [400]) := by
    decide +kernel
  obtain ⟨s, hrun, hf⟩ := Steps.exists_of_runChecked loginAndDelete hrun
  obtain ⟨hpurges, hmalformed⟩ := Prod.mk.inj hf
  have hcommitted : 0 ∈ s.server.committed := by
    refine List.mem_append_left _ ?_
    rw [hpurges]
    exact List.mem_cons_self
  exact ⟨s, hpurges, hmalformed, (gate_exact hrun).2.2.1 0 (Or.inl hcommitted)⟩

end RegistrarSessions
