import Registrar.Archive
import Registrar.Classify
import Registrar.Governor

/-! # The Clio client

    Every upstream request takes a slot of the governor for each call of the
    transport and retries on load signals.  First one request alone, over any
    sequence of answers of the transport; then any number of them at once, on one
    governor.  What the transport throws is any value: the catch block classifies it,
    and is left by a `RangeError` where that overflows the stack. -/

namespace RegistrarClient

open Runs RegistrarArchive RegistrarClassify RegistrarGovernor

variable {Result Warning : Type}

/-- What the runtime brings: how it prints a number, its powers, and the nested calls of
    `classifyError` that its stack has room for in a catch block. -/
structure Engine where
  numberToString : Number → String
  power : Power
  room : ℕ

/-- A thrown value, with the objects it leads to. -/
structure Thrown where
  objects : ℕ
  heap : Heap objects
  err : Value objects

/-! ## Requests and responses -/

/-- An outbound request; its other fields pass through. -/
structure ClioRequest where
  command : String
  apiVersion : Option Number := none

structure ClioRawResponse (Result Warning : Type) where
  result : Result
  forwarded : Option Bool := none
  warnings : Option (List Warning) := none

structure ClioResponse (Result Warning : Type) where
  result : Result
  forwarded : Bool
  warnings : List Warning
  provenance : Provenance
  raw : ClioRawResponse Result Warning

structure ClioRequestError where
  message : String
  command : String
  code : Option String
  attempts : ℕ
  deriving DecidableEq

/-- A client: the endpoint of its transport and its retries. -/
structure ClioClient where
  endpoint : String
  maxRetries : ℕ := 5

/-- What a call of the transport does. -/
inductive Outcome (Result Warning : Type)
  | success (raw : ClioRawResponse Result Warning) (fetchedAt : String)
  | thrown (t : Thrown)

/-- An outcome with what follows it where the client retries: whether the transport is
    still connected and, if it is not, whether `connect` succeeds. -/
structure Answer (Result Warning : Type) where
  outcome : Outcome Result Warning
  connected : Bool := true
  connects : Bool := true

inductive Settlement (Result Warning : Type)
  | response (r : ClioResponse Result Warning)
  | failed (e : ClioRequestError)
  -- the `RangeError` of a stack that overflows in the catch block
  | overflowed

/-- What a request does to the governor and its transport. -/
inductive Event
  | acquired
  | called
  | rewarded
  | penalized
  | reconnected (ok : Bool)
  | released
  deriving DecidableEq

/-! ## One request -/

/-- Force `api_version: 2`; the text of the `ApiVersionError` for any other value. -/
def prepare (E : Engine) (req : ClioRequest) :
    Except String ClioRequest :=
  if req.apiVersion.getD (.finite 2) = .finite 2 then
    .ok { req with apiVersion := some (.finite 2) }
  else .error ("Only api_version 2 is supported upstream; refusing to send api_version "
    ++ E.numberToString (req.apiVersion.getD (.finite 2)))

def wrap (client : ClioClient) (raw : ClioRawResponse Result Warning) (fetchedAt : String) :
    ClioResponse Result Warning where
  result := raw.result
  forwarded := raw.forwarded.getD false
  warnings := raw.warnings.getD []
  provenance := ⟨client.endpoint, fetchedAt⟩
  raw := raw

/-- The error of a request that gives up after `attempt` retries. -/
def requestError (command : String) (c : ErrorClassification) (attempt : ℕ) :
    ClioRequestError where
  message := "Clio request '" ++ command ++ "' failed"
    ++ (match c.code with
      | some code => " (" ++ code ++ ")"
      | none => "")
    ++ (if attempt > 0 then " after " ++ toString (attempt + 1) ++ " attempts" else "")
  command := command
  code := c.code
  attempts := attempt + 1

/-- The first statement of the catch block. -/
def classify (E : Engine) (t : Thrown) : Option ErrorClassification :=
  classifyError E.numberToString t.heap E.room t.err

/-- A load signal. -/
def Outcome.isLoad (E : Engine) : Outcome Result Warning → Bool
  | .success _ _ => false
  | .thrown t => (classify E t).any (·.retryable)

def Outcome.isSuccess : Outcome Result Warning → Bool
  | .success _ _ => true
  | .thrown _ => false

/-- The call has succeeded, or its error is classified. -/
def Outcome.isClassified (E : Engine) : Outcome Result Warning → Bool
  | .success _ _ => true
  | .thrown t => (classify E t).isSome

theorem isLoad_thrown (E : Engine) (t : Thrown) :
    (.thrown t : Outcome Result Warning).isLoad E = (classify E t).any (·.retryable) := rfl

theorem isClassified_thrown (E : Engine) (t : Thrown) :
    (.thrown t : Outcome Result Warning).isClassified E = (classify E t).isSome := rfl

/-- What the governor is told of an outcome. -/
def signals (E : Engine) (outcome : Outcome Result Warning) : List Event :=
  if outcome.isSuccess then [.rewarded] else if outcome.isLoad E then [.penalized] else []

/-- How a request ends with an outcome, after `attempt` retries; `none` for a retry. -/
def settle (E : Engine) (client : ClioClient) (command : String) (attempt : ℕ) :
    Outcome Result Warning → Option (Settlement Result Warning)
  | .success raw fetchedAt => some (.response (wrap client raw fetchedAt))
  | .thrown t =>
      match classify E t with
      | none => some .overflowed
      | some c =>
          if ¬ c.retryable ∨ attempt ≥ client.maxRetries then
            some (.failed (requestError command c attempt))
          else none

/-- The connection is actively re-established before a retry; a failure to is logged. -/
def reconnects (a : Answer Result Warning) : List Event :=
  if a.connected then [] else [.reconnected a.connects]

/-- A turn of the loop that retries. -/
def turn (E : Engine) (a : Answer Result Warning) : List Event :=
  [.acquired, .called] ++ signals E a.outcome ++ reconnects a ++ [.released]

/-- The turn that ends the request. -/
def lastTurn (E : Engine) (outcome : Outcome Result Warning) : List Event :=
  [.acquired, .called] ++ signals E outcome ++ [.released]

/-- The loop of `request`, over what the transport answers: the events, and how it ends;
    `none` where it waits for another answer. -/
def attempts (E : Engine) (client : ClioClient) (command : String) :
    ℕ → List (Answer Result Warning) → List Event × Option (Settlement Result Warning)
  | _, [] => ([], none)
  | attempt, a :: as =>
      match settle E client command attempt a.outcome with
      | some s => (lastTurn E a.outcome, some s)
      | none =>
          let (events, s) := attempts E client command (attempt + 1) as
          (turn E a ++ events, s)

/-- `ClioClient.request`: the text of an `ApiVersionError`, or the run of the loop. -/
def request (E : Engine) (client : ClioClient) (req : ClioRequest)
    (answers : List (Answer Result Warning)) :
    Except String (List Event × Option (Settlement Result Warning)) :=
  (prepare E req).map fun outbound => attempts E client outbound.command 0 answers

section OneRequest

variable {E : Engine} {client : ClioClient} {command : String} {attempt : ℕ}

/-- An outcome ends the request unless it is a load signal with a retry left. -/
theorem settle_eq_none_iff {outcome : Outcome Result Warning} :
    settle E client command attempt outcome = none
      ↔ outcome.isLoad E = true ∧ attempt < client.maxRetries := by
  cases outcome with
  | success raw fetchedAt => simp [settle, Outcome.isLoad]
  | thrown t =>
      unfold settle Outcome.isLoad
      cases hclassify : classify E t with
      | none => simp [hclassify]
      | some c =>
          by_cases hretry : c.retryable = true
          · by_cases hleft : attempt < client.maxRetries
            · simp [hclassify, hretry, hleft]
            · simp [hclassify, hretry, hleft]
          · simp [hclassify, hretry]

/-- An event of a slot, or of the call it is for. -/
def Event.ofSlot : Event → Bool
  | .acquired | .called | .released => true
  | _ => false

/-- A request that retried the answers `before` and ended with `last`. -/
structure Conduct (E : Engine) (client : ClioClient) (command : String) (attempt : ℕ)
    (before : List (Answer Result Warning)) (last : Answer Result Warning)
    (events : List Event) (s : Settlement Result Warning) : Prop where
  within : attempt + before.length ≤ client.maxRetries
  retried : ∀ a ∈ before, a.outcome.isLoad E = true
  slots : events.filter Event.ofSlot
    = (List.replicate (before.length + 1) [.acquired, .called, .released]).flatten
  penalized : events.count .penalized
    = (before ++ [last]).countP (fun a => a.outcome.isLoad E)
  rewarded : events.count .rewarded = if last.outcome.isSuccess then 1 else 0
  ended : (∃ raw fetchedAt, last.outcome = .success raw fetchedAt
      ∧ s = .response (wrap client raw fetchedAt))
    ∨ (∃ t c e, last.outcome = .thrown t ∧ classify E t = some c ∧ s = .failed e
      ∧ e = requestError command c (attempt + before.length)
      ∧ (c.retryable = true → attempt + before.length = client.maxRetries))
    ∨ ∃ t, last.outcome = .thrown t ∧ classify E t = none ∧ s = .overflowed

theorem isLoad_of_isSuccess {outcome : Outcome Result Warning}
    (h : outcome.isSuccess = true) : outcome.isLoad E = false := by
  cases outcome with
  | success raw fetchedAt => rfl
  | thrown t => cases h

theorem signals_ofSlot (outcome : Outcome Result Warning) :
    (signals E outcome).filter Event.ofSlot = [] := by
  unfold signals
  by_cases hsuccess : outcome.isSuccess = true
  · rw [if_pos hsuccess]
    rfl
  · rw [if_neg hsuccess]
    by_cases hload : outcome.isLoad E = true
    · rw [if_pos hload]
      rfl
    · rw [if_neg hload]
      rfl

theorem signals_penalized (outcome : Outcome Result Warning) :
    (signals E outcome).count .penalized = if outcome.isLoad E then 1 else 0 := by
  unfold signals
  by_cases hsuccess : outcome.isSuccess = true
  · rw [if_pos hsuccess, isLoad_of_isSuccess hsuccess]
    rfl
  · rw [if_neg hsuccess]
    by_cases hload : outcome.isLoad E = true
    · rw [if_pos hload, if_pos hload]
      rfl
    · rw [if_neg hload, if_neg hload]
      rfl

theorem signals_rewarded (outcome : Outcome Result Warning) :
    (signals E outcome).count .rewarded = if outcome.isSuccess then 1 else 0 := by
  unfold signals
  by_cases hsuccess : outcome.isSuccess = true
  · rw [if_pos hsuccess, if_pos hsuccess]
    rfl
  · rw [if_neg hsuccess, if_neg hsuccess]
    by_cases hload : outcome.isLoad E = true
    · rw [if_pos hload]
      rfl
    · rw [if_neg hload]
      rfl

/-- A reconnect, failed or not, touches no slot and tells the governor nothing. -/
theorem reconnects_silent (a : Answer Result Warning) :
    (reconnects a).filter Event.ofSlot = [] ∧ (reconnects a).count .penalized = 0
      ∧ (reconnects a).count .rewarded = 0 := by
  cases hconnected : a.connected <;> simp [reconnects, hconnected, Event.ofSlot]

/-- The call that ends a request. -/
theorem Conduct.last {a : Answer Result Warning} {s : Settlement Result Warning}
    (hattempt : attempt ≤ client.maxRetries)
    (h : settle E client command attempt a.outcome = some s) :
    Conduct E client command attempt [] a (lastTurn E a.outcome) s where
  within := hattempt
  retried := fun a ha => absurd ha List.not_mem_nil
  slots := by
    simp only [lastTurn, List.filter_append, signals_ofSlot]
    rfl
  penalized := by
    simp [lastTurn, signals_penalized]
  rewarded := by
    simp [lastTurn, signals_rewarded]
  ended := by
    cases houtcome : a.outcome with
    | success raw fetchedAt =>
        rw [houtcome] at h
        exact Or.inl ⟨raw, fetchedAt, rfl, (Option.some.inj h).symm⟩
    | thrown t =>
        rw [houtcome] at h
        unfold settle at h
        cases hclassify : classify E t with
        | none =>
            simp only [hclassify] at h
            exact Or.inr (Or.inr ⟨t, rfl, hclassify, (Option.some.inj h).symm⟩)
        | some c =>
            simp only [hclassify] at h
            obtain ⟨hends, h⟩ := Option.ite_none_right_eq_some.mp h
            refine Or.inr (Or.inl ⟨t, c, _, rfl, hclassify, (Option.some.inj h).symm, rfl,
              fun hretry => ?_⟩)
            rcases hends with hnot | hmax
            · exact absurd hretry hnot
            · exact le_antisymm hattempt hmax

/-- A call that is retried, before the others. -/
theorem Conduct.cons {a : Answer Result Warning} {before : List (Answer Result Warning)}
    {last : Answer Result Warning} {events : List Event} {s : Settlement Result Warning}
    (hload : a.outcome.isLoad E = true)
    (h : Conduct E client command (attempt + 1) before last events s) :
    Conduct E client command attempt (a :: before) last (turn E a ++ events) s := by
  obtain ⟨hslots, hpenalized, hrewarded⟩ := reconnects_silent a
  have hfail : a.outcome.isSuccess = false := by
    cases houtcome : a.outcome with
    | success raw fetchedAt =>
        rw [houtcome] at hload
        cases hload
    | thrown t => rfl
  refine ⟨?_, ?_, ?_, ?_, ?_, ?_⟩
  · have := h.within
    rw [List.length_cons]
    omega
  · intro b hb
    rcases List.mem_cons.mp hb with rfl | hb
    · exact hload
    · exact h.retried b hb
  · simp only [turn, List.filter_append, signals_ofSlot, hslots, h.slots]
    rw [List.length_cons, List.replicate_succ (n := before.length + 1)]
    rfl
  · simp only [turn, List.count_append, signals_penalized, hpenalized, h.penalized, hload]
    simp [hload]
    omega
  · simp only [turn, List.count_append, signals_rewarded, hrewarded, h.rewarded, hfail]
    simp
  · have hlength : attempt + (a :: before).length = attempt + 1 + before.length := by
      rw [List.length_cons]
      omega
    rw [hlength]
    exact h.ended

/-- **ONE REQUEST**: one that has ended did so at the first answer that is not a load
    signal, or at the last retry. -/
theorem conduct_of_attempts (hattempt : attempt ≤ client.maxRetries)
    {answers : List (Answer Result Warning)} {events : List Event}
    {s : Settlement Result Warning}
    (h : attempts E client command attempt answers = (events, some s)) :
    ∃ before last rest, answers = before ++ last :: rest
      ∧ Conduct E client command attempt before last events s := by
  induction answers generalizing attempt events with
  | nil => cases h
  | cons a as ih =>
      cases hsettle : settle E client command attempt a.outcome with
      | some ending =>
          simp only [attempts, hsettle] at h
          cases h
          exact ⟨[], a, as, rfl, Conduct.last hattempt hsettle⟩
      | none =>
          obtain ⟨hload, hleft⟩ := settle_eq_none_iff.mp hsettle
          simp only [attempts, hsettle, Prod.mk.injEq] at h
          obtain ⟨rfl, hends⟩ := h
          obtain ⟨before, last, rest, rfl, hconduct⟩ := ih hleft (Prod.ext rfl hends)
          exact ⟨a :: before, last, rest, rfl, hconduct.cons hload⟩

/-- One that is answered long enough has ended. -/
theorem attempts_ends_of_long {answers : List (Answer Result Warning)}
    (hattempt : attempt ≤ client.maxRetries)
    (hlong : client.maxRetries < attempt + answers.length) :
    ∃ events s, attempts E client command attempt answers = (events, some s) := by
  induction answers generalizing attempt with
  | nil =>
      rw [List.length_nil] at hlong
      omega
  | cons a as ih =>
      cases hsettle : settle E client command attempt a.outcome with
      | some s =>
          refine ⟨lastTurn E a.outcome, s, ?_⟩
          simp only [attempts, hsettle]
      | none =>
          obtain ⟨-, hleft⟩ := settle_eq_none_iff.mp hsettle
          rw [List.length_cons] at hlong
          obtain ⟨events, s, hattempts⟩ := ih hleft (by omega)
          refine ⟨turn E a ++ events, s, ?_⟩
          simp only [attempts, hsettle, hattempts]

/-- The loop comes to no error that is not classified. -/
def AllClassified (E : Engine) (client : ClioClient) (answers : List (Answer Result Warning)) :
    Prop :=
  ∀ before a rest, answers = before ++ a :: rest → before.length ≤ client.maxRetries →
    (∀ b ∈ before, b.outcome.isLoad E = true) → a.outcome.isClassified E = true

theorem isClassified_of_isLoad {outcome : Outcome Result Warning}
    (h : outcome.isLoad E = true) : outcome.isClassified E = true := by
  cases outcome with
  | success raw fetchedAt => rfl
  | thrown t =>
      rw [isLoad_thrown] at h
      rw [isClassified_thrown]
      cases hclassify : classify E t with
      | none =>
          rw [hclassify] at h
          cases h
      | some c => rfl

/-- **WHICH REQUESTS END WELL**: the stack overflows in the catch block exactly if the loop
    comes to an error that is not classified. -/
theorem Conduct.ends_well_iff {before rest : List (Answer Result Warning)}
    {last : Answer Result Warning} {events : List Event} {s : Settlement Result Warning}
    (h : Conduct E client command 0 before last events s) :
    s ≠ .overflowed ↔ AllClassified E client (before ++ last :: rest) := by
  constructor
  · intro hwell before' a rest' hsplit hwithin hloads
    have hlast : last.outcome.isClassified E = true ∧ (last.outcome.isLoad E = true →
        before.length = client.maxRetries) := by
      rcases h.ended with ⟨raw, fetchedAt, houtcome, -⟩ |
        ⟨t, c, e, houtcome, hclassify, -, -, hmax⟩ | ⟨t, -, -, rfl⟩
      · rw [houtcome]
        exact ⟨rfl, fun hload => nomatch hload⟩
      · rw [houtcome, isClassified_thrown, isLoad_thrown, hclassify]
        refine ⟨rfl, fun hload => ?_⟩
        rw [← hmax hload, Nat.zero_add]
      · exact absurd rfl hwell
    rcases List.append_eq_append_iff.mp hsplit with ⟨m, rfl, hm⟩ | ⟨m, rfl, hm⟩
    · cases m with
      | nil =>
          cases hm
          exact hlast.1
      | cons x m =>
          -- the loop ends at `last`, and `a` comes after it
          cases hm
          have hmax := hlast.2 (hloads last (List.mem_append_right _ List.mem_cons_self))
          rw [List.length_append, List.length_cons] at hwithin
          omega
    · cases m with
      | nil =>
          cases hm
          exact hlast.1
      | cons x m =>
          cases hm
          exact isClassified_of_isLoad (h.retried a (List.mem_append_right _ List.mem_cons_self))
  · rintro hall rfl
    have hlast := hall before last rest rfl (by have := h.within; omega) h.retried
    rcases h.ended with ⟨raw, fetchedAt, -, hs⟩ | ⟨t, c, e, -, -, hs, -⟩ |
      ⟨t, houtcome, hclassify, -⟩
    · cases hs
    · cases hs
    · rw [houtcome, isClassified_thrown, hclassify] at hlast
      cases hlast

end OneRequest

/-! ## Any number of requests -/

/-- Where a request is suspended, with the number of its call of `acquire`. -/
inductive Stage (Result Warning : Type)
  | acquiring (caller : ℕ)
  | calling (caller : ℕ)
  | reconnecting (caller : ℕ) (outcome : Outcome Result Warning)
  | settled (s : Settlement Result Warning)

/-- The call of `acquire` whose slot is waited for or held. -/
def Stage.caller? : Stage Result Warning → Option ℕ
  | .acquiring c => some c
  | .calling c => some c
  | .reconnecting c _ => some c
  | .settled _ => none

/-- A request in progress, with its events and the answers it got. -/
structure Pending (Result Warning : Type) where
  client : ClioClient
  command : String
  attempt : ℕ := 0
  stage : Stage Result Warning
  log : List Event := []
  answers : List (Answer Result Warning) := []

/-- The governor and the requests that share it. -/
structure Clients (Result Warning : Type) where
  governor : Governor
  requests : List (Pending Result Warning) := []

/-- The governor resumes a call of `acquire`; or a request is issued, goes on to call the
    transport, is answered, or is done reconnecting.  The times are readings of the clock. -/
inductive Action (Result Warning : Type)
  | wake (caller : ℕ) (time : ℚ)
  | takeSlot (caller : ℕ)
  | resume (caller : ℕ) (time again : ℚ)
  | issue (client : ClioClient) (req : ClioRequest) (time : ℚ)
  | call (i : ℕ)
  | answer (i : ℕ) (outcome : Outcome Result Warning) (connected : Bool) (time again : ℚ)
  | connect (i : ℕ) (ok : Bool) (again : ℚ)

/-- What a call of a method of the governor is in the log of a request. -/
def told : RegistrarGovernor.Action → Option Event
  | .acquire _ => some .acquired
  | .penalize _ => some .penalized
  | .reward _ => some .rewarded
  | .release _ => some .released
  | _ => none

/-- The event is of a call of the governor. -/
def Event.isTold : Event → Bool
  | .acquired | .penalized | .rewarded | .released => true
  | _ => false

/-- The call that a request has made and not logged: it waits for a slot. -/
def Stage.waits : Stage Result Warning → List Event
  | .acquiring _ => [.acquired]
  | _ => []

/-- What a request has asked of the governor. -/
def Pending.asked (r : Pending Result Warning) : List Event :=
  (r.log ++ r.stage.waits).filter Event.isTold

/-- The governor is told of an outcome. -/
def tell (E : Engine) (opts : GovernorOptions) (g : Governor) (time : ℚ)
    (outcome : Outcome Result Warning) : Option Governor :=
  if outcome.isSuccess then RegistrarGovernor.step E.power opts g (.reward time)
  else if outcome.isLoad E then RegistrarGovernor.step E.power opts g (.penalize time)
  else some g

/-- The end of a turn of the loop: the slot is released and the next one asked for. -/
def again (E : Engine) (opts : GovernorOptions) (s : Clients Result Warning) (g : Governor)
    (i : ℕ) (r : Pending Result Warning) (caller : ℕ) (time : ℚ) :
    Option (Clients Result Warning) :=
  (RegistrarGovernor.step E.power opts g (.release caller)).bind fun g =>
    (RegistrarGovernor.step E.power opts g (.acquire time)).map fun g' =>
      { governor := g'
        requests := s.requests.set i
          { r with stage := .acquiring g.callers.length, log := r.log ++ [.released] } }

/-- What a request does with an outcome. -/
def answered (E : Engine) (opts : GovernorOptions) (s : Clients Result Warning) (i : ℕ)
    (r : Pending Result Warning) (caller : ℕ) (outcome : Outcome Result Warning)
    (connected : Bool) (time time' : ℚ) : Option (Clients Result Warning) :=
  (tell E opts s.governor time outcome).bind fun g =>
    match settle E r.client r.command r.attempt outcome with
    | some ending =>
        (RegistrarGovernor.step E.power opts g (.release caller)).map fun g =>
          { governor := g
            requests := s.requests.set i
              { r with
                stage := .settled ending
                log := r.log ++ signals E outcome ++ [.released]
                answers := r.answers ++ [{ outcome, connected }] } }
    | none =>
        if connected then
          again E opts s g i
            { r with
              attempt := r.attempt + 1
              log := r.log ++ signals E outcome
              answers := r.answers ++ [{ outcome }] } caller time'
        else
          some
            { governor := g
              requests := s.requests.set i
                { r with
                  attempt := r.attempt + 1
                  stage := .reconnecting caller outcome
                  log := r.log ++ signals E outcome } }

def step (E : Engine) (opts : GovernorOptions)
    (s : Clients Result Warning) : Action Result Warning → Option (Clients Result Warning)
  | .wake c t =>
      (RegistrarGovernor.step E.power opts s.governor (.wake c t)).map fun g =>
        { s with governor := g }
  | .takeSlot c =>
      (RegistrarGovernor.step E.power opts s.governor (.takeSlot c)).map fun g =>
        { s with governor := g }
  | .resume c t t' =>
      (RegistrarGovernor.step E.power opts s.governor (.resume c t t')).map fun g =>
        { s with governor := g }
  | .issue client req t =>
      match prepare E req with
      | .error _ => some s
      | .ok outbound =>
          (RegistrarGovernor.step E.power opts s.governor (.acquire t)).map fun g =>
            { governor := g
              requests := s.requests ++
                [{ client, command := outbound.command
                   stage := .acquiring s.governor.callers.length }] }
  | .call i =>
      s.requests[i]?.bind fun r =>
        match r.stage with
        | .acquiring c =>
            if s.governor.callers[c]? = some .granted then
              some { s with
                requests := s.requests.set i
                  { r with stage := .calling c, log := r.log ++ [.acquired, .called] } }
            else none
        | _ => none
  | .answer i outcome connected t t' =>
      s.requests[i]?.bind fun r =>
        match r.stage with
        | .calling c => answered E opts s i r c outcome connected t t'
        | _ => none
  | .connect i ok t =>
      s.requests[i]?.bind fun r =>
        match r.stage with
        | .reconnecting c outcome =>
            again E opts s s.governor i
              { r with
                log := r.log ++ [.reconnected ok]
                answers := r.answers ++ [{ outcome, connected := false, connects := ok }] } c t
        | _ => none

/-! ## What a request has done -/

/-- The request did what it does alone, with the answers it got. -/
def Follows (E : Engine) (r : Pending Result Warning) : Prop :=
  match r.stage with
  | .acquiring _ =>
      attempts E r.client r.command 0 r.answers = (r.log, none) ∧ r.attempt = r.answers.length
  | .calling _ =>
      ∃ events, attempts E r.client r.command 0 r.answers = (events, none)
        ∧ r.attempt = r.answers.length ∧ r.log = events ++ [.acquired, .called]
  | .reconnecting _ outcome =>
      ∃ events, attempts E r.client r.command 0 r.answers = (events, none)
        ∧ r.attempt = r.answers.length + 1
        ∧ settle E r.client r.command r.answers.length outcome = none
        ∧ r.log = events ++ [.acquired, .called] ++ signals E outcome
  | .settled s => attempts E r.client r.command 0 r.answers = (r.log, some s)

section Follows

variable {E : Engine} {client : ClioClient} {command : String}

/-- Further answers go on where the request waits for them. -/
theorem attempts_append {attempt : ℕ} {answers more : List (Answer Result Warning)}
    {events : List Event} (h : attempts E client command attempt answers = (events, none)) :
    attempts E client command attempt (answers ++ more)
      = (events ++ (attempts E client command (attempt + answers.length) more).1,
        (attempts E client command (attempt + answers.length) more).2) := by
  induction answers generalizing attempt events with
  | nil =>
      cases h
      rfl
  | cons b bs ih =>
      cases hb : settle E client command attempt b.outcome with
      | some ending =>
          simp only [attempts, hb] at h
          cases h
      | none =>
          have hlength : attempt + (b :: bs).length = attempt + 1 + bs.length := by
            rw [List.length_cons]
            omega
          simp only [attempts, hb, Prod.mk.injEq] at h
          obtain ⟨rfl, hwaits⟩ := h
          have hrest : attempts E client command (attempt + 1) bs = (_, none) :=
            Prod.ext rfl hwaits
          have hrest := ih hrest
          simp only [List.cons_append, attempts, hb, hrest, hlength, List.append_assoc]

theorem attempts_ends {answers : List (Answer Result Warning)} {events : List Event}
    (h : attempts E client command 0 answers = (events, none)) {a : Answer Result Warning}
    {s : Settlement Result Warning}
    (hsettle : settle E client command answers.length a.outcome = some s) :
    attempts E client command 0 (answers ++ [a]) = (events ++ lastTurn E a.outcome, some s) := by
  rw [attempts_append h, Nat.zero_add]
  simp only [attempts, hsettle]

theorem attempts_retries {answers : List (Answer Result Warning)} {events : List Event}
    (h : attempts E client command 0 answers = (events, none)) {a : Answer Result Warning}
    (hsettle : settle E client command answers.length a.outcome = none) :
    attempts E client command 0 (answers ++ [a]) = (events ++ turn E a, none) := by
  rw [attempts_append h, Nat.zero_add]
  simp only [attempts, hsettle, List.append_nil]

end Follows

/-! ## Whose slots there are -/

/-- The call of `acquire` waits for a slot or holds one. -/
def Live (callers : List Phase) (c : ℕ) : Prop := ∃ p, callers[c]? = some p ∧ p ≠ .released

/-- Nothing changes for a call: it stays granted, and as live as it was. -/
structure Kept (callers callers' : List Phase) (c : ℕ) : Prop where
  granted : callers[c]? = some .granted → callers'[c]? = some .granted
  live : Live callers' c ↔ Live callers c

section Callers

variable {callers callers' : List Phase} {c i : ℕ}

theorem Kept.refl (callers : List Phase) (c : ℕ) : Kept callers callers c := ⟨id, Iff.rfl⟩

theorem Kept.trans {callers'' : List Phase} (h : Kept callers callers' c)
    (h' : Kept callers' callers'' c) : Kept callers callers'' c :=
  ⟨fun hc => h'.granted (h.granted hc), h'.live.trans h.live⟩

/-- Setting the phase of another call. -/
theorem Kept.set_of_ne {p : Phase} (hne : i ≠ c) : Kept callers (callers.set i p) c := by
  refine ⟨?_, ?_⟩
  · rw [List.getElem?_set_ne hne]
    exact id
  · unfold Live
    rw [List.getElem?_set_ne hne]

/-- A call that waits for a slot goes on to another phase. -/
theorem Kept.set {p q : Phase} (hi : callers[i]? = some p) (hgranted : p ≠ .granted)
    (hp : p ≠ .released) (hq : q ≠ .released) : Kept callers (callers.set i q) c := by
  by_cases hne : i = c
  · subst hne
    have hset := getElem?_set_of_some (q := q) hi
    refine ⟨?_, ?_⟩
    · intro hc
      exact absurd (Option.some.inj (hi.symm.trans hc)) hgranted
    · exact ⟨fun _ => ⟨p, hi, hp⟩, fun _ => ⟨q, hset, hq⟩⟩
  · exact Kept.set_of_ne hne

theorem not_live_released (hc : callers[c]? = some .released) : ¬ Live callers c := by
  rintro ⟨p, hp, hne⟩
  exact hne (Option.some.inj (hc.symm.trans hp)).symm

/-- A slot that is returned goes to a queued call, if any. -/
theorem kept_of_returnsSlot {g g' : Governor} {p : Phase}
    (hset : Kept g.callers (g.callers.set i p) c) (h : ReturnsSlot g i p g') :
    Kept g.callers g'.callers c := by
  rcases h with ⟨next, rest, -, -, hnext, hqueued, hcallers, -, -⟩ | ⟨-, hcallers, -, -⟩
  · rw [hcallers]
    refine hset.trans (Kept.set (p := .queued) ?_ nofun nofun nofun)
    rw [List.getElem?_set_ne hnext.symm]
    exact hqueued
  · rw [hcallers]
    exact hset

end Callers

/-- A call of `acquire` only adds itself. -/
theorem acquire_callers {E : Engine} {opts : GovernorOptions} {g g' : Governor} {t : ℚ}
    (h : RegistrarGovernor.step E.power opts g (.acquire t) = some g') :
    (∀ c ≠ g.callers.length, Kept g.callers g'.callers c)
      ∧ ¬ Live g.callers g.callers.length ∧ Live g'.callers g.callers.length := by
  obtain ⟨-, h⟩ := Option.ite_none_right_eq_some.mp h
  cases Option.some.inj h
  refine ⟨?_, ?_, ?_⟩
  · intro c hc
    have hsame : (g.callers ++ [waitForCooldown g t])[c]? = g.callers[c]? := by
      by_cases hlt : c < g.callers.length
      · exact List.getElem?_append_left hlt
      · have hlong : (g.callers ++ [waitForCooldown g t]).length ≤ c := by
          rw [List.length_append, List.length_singleton]
          omega
        rw [List.getElem?_eq_none hlong, List.getElem?_eq_none (by omega)]
    refine ⟨?_, ?_⟩
    · intro hgranted
      exact hsame.trans hgranted
    · unfold Live
      rw [hsame]
  · rintro ⟨p, hp, -⟩
    rw [List.getElem?_eq_none (le_refl _)] at hp
    cases hp
  · refine ⟨waitForCooldown g t, ?_, ?_⟩
    · show (g.callers ++ [waitForCooldown g t])[g.callers.length]? = _
      rw [List.getElem?_append_right (le_refl _), Nat.sub_self]
      rfl
    · rcases waitForCooldown_eq g t with h | h <;> rw [h] <;> exact nofun

section Governed

variable {E : Engine} {opts : GovernorOptions} {g g' : Governor}

/-- Resuming a call that waits for a slot leaves every call as it is to its owner. -/
theorem kept_of_wake {i : ℕ} {t : ℚ}
    (h : RegistrarGovernor.step E.power opts g (.wake i t) = some g') (c : ℕ) :
    Kept g.callers g'.callers c := by
  obtain ⟨⟨-, hi⟩, h⟩ := Option.ite_none_right_eq_some.mp h
  cases Option.some.inj h
  refine Kept.set hi nofun nofun ?_
  rcases waitForCooldown_eq g t with h | h <;> rw [h] <;> exact nofun

theorem kept_of_takeSlot {i : ℕ}
    (h : RegistrarGovernor.step E.power opts g (.takeSlot i) = some g') (c : ℕ) :
    Kept g.callers g'.callers c := by
  obtain ⟨hi, h⟩ := Option.ite_none_right_eq_some.mp h
  cases Option.some.inj h
  unfold takeSlot
  by_cases hfree : g.inFlight < opts.maxConcurrent
  · rw [if_pos hfree]
    exact Kept.set hi nofun nofun nofun
  · rw [if_neg hfree]
    exact Kept.set hi nofun nofun nofun

theorem kept_of_resume {i : ℕ} {t t' : ℚ} (hacc : Accounted opts g)
    (h : RegistrarGovernor.step E.power opts g (.resume i t t') = some g') (c : ℕ) :
    Kept g.callers g'.callers c := by
  obtain ⟨⟨-, -, hi⟩, h⟩ := Option.ite_none_right_eq_some.mp h
  obtain ⟨p, hp, hgranted, hreleased, hqueued⟩ : ∃ p, g.callers[i]? = some p ∧ p ≠ .granted
      ∧ p ≠ .released ∧ p ≠ .queued := by
    rcases hi with hi | hi
    · exact ⟨_, hi, nofun, nofun, nofun⟩
    · exact ⟨_, hi, nofun, nofun, nofun⟩
  by_cases hcool : Doubles.finite t < g.cooldownUntil
  · rw [if_pos hcool] at h
    cases Option.some.inj h
    have hwait : waitForCooldown g t' ≠ .released := by
      rcases waitForCooldown_eq g t' with h | h <;> rw [h] <;> exact nofun
    exact kept_of_returnsSlot (Kept.set hp hgranted hreleased hwait)
      (hacc.returnsSlot hp hqueued)
  · rw [if_neg hcool] at h
    cases Option.some.inj h
    exact Kept.set hp hgranted hreleased nofun

/-- A release ends its own call and leaves the others. -/
theorem release_callers {i : ℕ} (hacc : Accounted opts g) (hi : g.callers[i]? = some .granted)
    (h : RegistrarGovernor.step E.power opts g (.release i) = some g') :
    (∀ c ≠ i, Kept g.callers g'.callers c) ∧ g'.callers[i]? = some .released := by
  have h : some _ = some g' := (if_pos hi).symm.trans h
  cases Option.some.inj h
  have hreturns := hacc.returnsSlot (q := .released) (t := g.now) hi nofun
  refine ⟨fun c hc => kept_of_returnsSlot (Kept.set_of_ne hc.symm) hreturns, ?_⟩
  rcases hreturns with ⟨next, rest, -, -, hnext, -, hcallers, -, -⟩ | ⟨-, hcallers, -, -⟩
  · refine (congrArg (·[i]?) hcallers).trans ?_
    show ((g.callers.set i .released).set next .handed)[i]? = some .released
    rw [List.getElem?_set_ne hnext, getElem?_set_of_some hi]
  · refine (congrArg (·[i]?) hcallers).trans ?_
    exact getElem?_set_of_some hi

/-- The governor is told by its own methods, once for each signal. -/
theorem tell_actions {time : ℚ} {outcome : Outcome Result Warning}
    (h : tell E opts g time outcome = some g') :
    ∃ acts, run (RegistrarGovernor.step E.power opts) g acts = some g'
      ∧ acts.filterMap told = signals E outcome
      ∧ ∀ a ∈ acts, a = .reward time ∨ a = .penalize time := by
  unfold tell at h
  unfold signals
  by_cases hsuccess : outcome.isSuccess = true
  · rw [if_pos hsuccess] at h ⊢
    refine ⟨[.reward time], ?_, rfl, fun a ha => Or.inl (List.mem_singleton.mp ha)⟩
    rw [run_singleton]
    exact h
  · rw [if_neg hsuccess] at h ⊢
    by_cases hload : outcome.isLoad E = true
    · rw [if_pos hload] at h ⊢
      refine ⟨[.penalize time], ?_, rfl, fun a ha => Or.inr (List.mem_singleton.mp ha)⟩
      rw [run_singleton]
      exact h
    · rw [if_neg hload] at h ⊢
      exact ⟨[], h, rfl, fun a ha => absurd ha List.not_mem_nil⟩

/-- What the governor is told changes no call. -/
theorem tell_callers {time : ℚ} {outcome : Outcome Result Warning}
    (h : tell E opts g time outcome = some g') : g'.callers = g.callers := by
  obtain ⟨acts, hrun, -, hacts⟩ := tell_actions h
  refine (Steps.of_run_mem hrun).inv (fun u => u.callers = g.callers) rfl
    (fun u a u' hu ha hs => ?_)
  rw [← hu]
  rcases hacts a ha with rfl | rfl
  · obtain ⟨-, hs⟩ := Option.ite_none_right_eq_some.mp hs
    cases Option.some.inj hs
    unfold reward
    by_cases hcool : u.cooldownUntil ≤ Doubles.finite time
    · rw [if_pos hcool]
    · rw [if_neg hcool]
  · obtain ⟨-, hs⟩ := Option.ite_none_right_eq_some.mp hs
    cases Option.some.inj hs
    rfl

theorem accounted_of_tell {time : ℚ} {outcome : Outcome Result Warning} (hacc : Accounted opts g)
    (h : tell E opts g time outcome = some g') : Accounted opts g' := by
  obtain ⟨acts, hrun, -, -⟩ := tell_actions h
  exact (Steps.of_run hrun).inv (Accounted opts) hacc (fun _ _ _ hu _ hs => hu.of_step hs)

end Governed

/-! ## Owning a slot -/

/-- The request's call of `acquire` is as its stage says. -/
def Holds (callers : List Phase) : Stage Result Warning → Prop
  | .acquiring c => Live callers c
  | .calling c => callers[c]? = some .granted
  | .reconnecting c _ => callers[c]? = some .granted
  | .settled _ => True

def OwnedBy (requests : List (Pending Result Warning)) (i c : ℕ) : Prop :=
  ∃ r, requests[i]? = some r ∧ r.stage.caller? = some c

/-- **EVERY LIVE CALL OF `acquire` IS THAT OF ONE REQUEST**, which has not settled. -/
structure Owns (callers : List Phase) (requests : List (Pending Result Warning)) : Prop where
  holds : ∀ (i : ℕ) (r : Pending Result Warning), requests[i]? = some r → Holds callers r.stage
  unique : ∀ i j c, OwnedBy requests i c → OwnedBy requests j c → i = j
  owned : ∀ c, Live callers c → ∃ i, OwnedBy requests i c

theorem Holds.live {callers : List Phase} {stage : Stage Result Warning} {c : ℕ}
    (h : Holds callers stage) (hc : stage.caller? = some c) : Live callers c := by
  cases stage with
  | acquiring c' =>
      cases hc
      exact h
  | calling c' =>
      cases hc
      exact ⟨_, h, nofun⟩
  | reconnecting c' outcome =>
      cases hc
      exact ⟨_, h, nofun⟩
  | settled s => cases hc

theorem Holds.kept {callers callers' : List Phase} {stage : Stage Result Warning}
    (h : Holds callers stage) (hkept : ∀ c, stage.caller? = some c → Kept callers callers' c) :
    Holds callers' stage := by
  cases stage with
  | acquiring c => exact (hkept c rfl).live.mpr h
  | calling c => exact (hkept c rfl).granted h
  | reconnecting c outcome => exact (hkept c rfl).granted h
  | settled s => trivial

section Owned

variable {callers callers' : List Phase} {requests : List (Pending Result Warning)}

/-- A step of the governor that keeps every call. -/
theorem Owns.kept (h : Owns callers requests) (hkept : ∀ c, Kept callers callers' c) :
    Owns callers' requests where
  holds := fun i r hr => (h.holds i r hr).kept fun c _ => hkept c
  unique := h.unique
  owned := fun c hc => h.owned c ((hkept c).live.mp hc)

/-- A request that is issued, with a new call. -/
theorem Owns.append (h : Owns callers requests) {r : Pending Result Warning} {c : ℕ}
    (hstage : r.stage = .acquiring c) (hkept : ∀ c' ≠ c, Kept callers callers' c')
    (hnew : ¬ Live callers c) (hlive : Live callers' c) : Owns callers' (requests ++ [r]) := by
  have hsplit : ∀ i q, (requests ++ [r])[i]? = some q →
      requests[i]? = some q ∨ (i = requests.length ∧ q = r) := by
    intro i q hq
    by_cases hlt : i < requests.length
    · exact Or.inl ((List.getElem?_append_left hlt).symm.trans hq)
    · rw [List.getElem?_append_right (by omega)] at hq
      obtain ⟨hi, hq⟩ := List.getElem?_eq_some_iff.mp hq
      rw [List.length_singleton] at hi
      refine Or.inr ⟨by omega, ?_⟩
      rw [← hq]
      exact List.getElem_singleton hi
  have hcaller : r.stage.caller? = some c := by
    rw [hstage]
    rfl
  have hold : ∀ i c', OwnedBy requests i c' → c' ≠ c := by
    rintro i c' ⟨q, hq, hc'⟩ rfl
    exact hnew ((h.holds i q hq).live hc')
  refine ⟨?_, ?_, ?_⟩
  · intro i q hq
    rcases hsplit i q hq with hq | ⟨-, rfl⟩
    · exact (h.holds i q hq).kept fun c' hc' => hkept c' (hold i c' ⟨q, hq, hc'⟩)
    · rw [hstage]
      exact hlive
  · rintro i j c' ⟨q, hq, hc⟩ ⟨q', hq', hc'⟩
    rcases hsplit i q hq with hold₁ | ⟨hi, hlast⟩
    · rcases hsplit j q' hq' with hold₂ | ⟨-, hlast⟩
      · exact h.unique i j c' ⟨q, hold₁, hc⟩ ⟨q', hold₂, hc'⟩
      · rw [hlast, hcaller] at hc'
        exact absurd (Option.some.inj hc').symm (hold i c' ⟨q, hold₁, hc⟩)
    · rw [hlast, hcaller] at hc
      rcases hsplit j q' hq' with hold₂ | ⟨hj, -⟩
      · exact absurd (Option.some.inj hc).symm (hold j c' ⟨q', hold₂, hc'⟩)
      · rw [hi, hj]
  · intro c' hc'
    by_cases hsame : c' = c
    · subst hsame
      exact ⟨requests.length, r, List.getElem?_concat_length, hcaller⟩
    · obtain ⟨i, q, hq, hcq⟩ := h.owned c' ((hkept c' hsame).live.mp hc')
      have hlt := (List.getElem?_eq_some_iff.mp hq).1
      exact ⟨i, q, (List.getElem?_append_left hlt).trans hq, hcq⟩

/-- A request that goes on, with the same call, with none or with a new one. -/
theorem Owns.set (h : Owns callers requests) {i c : ℕ} {r r' : Pending Result Warning}
    (hi : requests[i]? = some r) (hc : r.stage.caller? = some c)
    (hnew : r'.stage.caller? = some c
      ∨ (¬ Live callers' c ∧ ∀ f, r'.stage.caller? = some f → ¬ Live callers f))
    (hkept : ∀ c' ≠ c, r'.stage.caller? ≠ some c' → Kept callers callers' c')
    (hholds : Holds callers' r'.stage) : Owns callers' (requests.set i r') := by
  have hlt := (List.getElem?_eq_some_iff.mp hi).1
  have hself : (requests.set i r')[i]? = some r' := List.getElem?_set_self hlt
  have hother : ∀ {j}, j ≠ i → (requests.set i r')[j]? = requests[j]? :=
    fun hne => List.getElem?_set_ne hne.symm
  -- another request's call is neither this one nor the new one
  have happart : ∀ {j q c'}, j ≠ i → requests[j]? = some q → q.stage.caller? = some c' →
      c' ≠ c ∧ r'.stage.caller? ≠ some c' := by
    intro j q c' hne hq hc'
    have hdiff : c' ≠ c := by
      rintro rfl
      exact hne (h.unique j i c' ⟨q, hq, hc'⟩ ⟨r, hi, hc⟩)
    refine ⟨hdiff, fun hsame => ?_⟩
    rcases hnew with hnew | ⟨-, hfresh⟩
    · exact hdiff (Option.some.inj (hsame.symm.trans hnew))
    · exact hfresh c' hsame ((h.holds j q hq).live hc')
  refine ⟨?_, ?_, ?_⟩
  · intro j q hq
    by_cases hne : j = i
    · subst hne
      cases Option.some.inj (hself.symm.trans hq)
      exact hholds
    · rw [hother hne] at hq
      refine (h.holds j q hq).kept fun c' hc' => ?_
      obtain ⟨hdiff, hfresh⟩ := happart hne hq hc'
      exact hkept c' hdiff hfresh
  · rintro j k c' ⟨q, hq, hcq⟩ ⟨q', hq', hcq'⟩
    by_cases hj : j = i
    · by_cases hk : k = i
      · rw [hj, hk]
      · subst hj
        cases Option.some.inj (hself.symm.trans hq)
        rw [hother hk] at hq'
        exact absurd hcq (happart hk hq' hcq').2
    · rw [hother hj] at hq
      by_cases hk : k = i
      · subst hk
        cases Option.some.inj (hself.symm.trans hq')
        exact absurd hcq' (happart hj hq hcq).2
      · rw [hother hk] at hq'
        exact h.unique j k c' ⟨q, hq, hcq⟩ ⟨q', hq', hcq'⟩
  · intro c' hlive
    by_cases hsame : r'.stage.caller? = some c'
    · exact ⟨i, r', hself, hsame⟩
    · have hdiff : c' ≠ c := by
        rintro rfl
        rcases hnew with hnew | ⟨hdead, -⟩
        · exact hsame hnew
        · exact hdead hlive
      obtain ⟨j, q, hq, hcq⟩ := h.owned c' ((hkept c' hdiff hsame).live.mp hlive)
      have hne : j ≠ i := by
        rintro rfl
        cases Option.some.inj (hi.symm.trans hq)
        exact hdiff (Option.some.inj (hcq.symm.trans hc))
      exact ⟨j, q, (hother hne).trans hq, hcq⟩

end Owned

/-! ## Every run -/

/-- **THE INVARIANT OF THE CLIENTS.** -/
structure Inv (E : Engine) (opts : GovernorOptions) (s : Clients Result Warning) : Prop where
  accounted : Accounted opts s.governor
  owns : Owns s.governor.callers s.requests
  follows : ∀ r ∈ s.requests, Follows E r

section Runs

variable {E : Engine} {opts : GovernorOptions} {s s' : Clients Result Warning} {i c : ℕ}
  {r : Pending Result Warning}

theorem mem_set_request {requests : List (Pending Result Warning)} {q : Pending Result Warning}
    (hall : ∀ q ∈ requests, Follows E q) (hr : Follows E r) (hq : q ∈ requests.set i r) :
    Follows E q := by
  rcases List.mem_or_eq_of_mem_set hq with hq | rfl
  · exact hall q hq
  · exact hr

/-- The slot goes back, and a new call of `acquire` takes its place. -/
theorem Inv.of_again {g : Governor} {r' : Pending Result Warning} {time : ℚ}
    (hacc : Accounted opts g) (howns : Owns g.callers s.requests)
    (hall : ∀ q ∈ s.requests, Follows E q) (hi : s.requests[i]? = some r)
    (hc : r.stage.caller? = some c) (hgranted : g.callers[c]? = some .granted)
    (hfollows : ∀ f, Follows E { r' with stage := .acquiring f, log := r'.log ++ [.released] })
    (h : again E opts s g i r' c time = some s') : Inv E opts s' := by
  obtain ⟨g₁, hrelease, h⟩ := Option.bind_eq_some_iff.mp h
  obtain ⟨g₂, hacquire, rfl⟩ := Option.map_eq_some_iff.mp h
  have hacc₁ := hacc.of_step hrelease
  obtain ⟨hkept₁, hreleased⟩ := release_callers hacc hgranted hrelease
  obtain ⟨hkept₂, hfresh, hlive⟩ := acquire_callers hacquire
  have hlt := (List.getElem?_eq_some_iff.mp hreleased).1
  have hne : g₁.callers.length ≠ c := by omega
  refine ⟨hacc₁.of_step hacquire, ?_, fun q hq => mem_set_request hall (hfollows _) hq⟩
  refine howns.set hi hc (Or.inr ⟨?_, ?_⟩) ?_ hlive
  · rw [(hkept₂ c hne.symm).live]
    exact not_live_released hreleased
  · intro f hf
    cases Option.some.inj hf
    rw [← (hkept₁ _ hne).live]
    exact hfresh
  · intro c' hc' hf
    refine (hkept₁ c' hc').trans (hkept₂ c' ?_)
    rintro rfl
    exact hf rfl

/-- The slot goes back for good. -/
theorem Inv.of_settled {g g' : Governor} {r' : Pending Result Warning}
    {ending : Settlement Result Warning} (hacc : Accounted opts g)
    (howns : Owns g.callers s.requests) (hall : ∀ q ∈ s.requests, Follows E q)
    (hi : s.requests[i]? = some r) (hc : r.stage.caller? = some c)
    (hgranted : g.callers[c]? = some .granted) (hstage : r'.stage = .settled ending)
    (hfollows : Follows E r') (h : RegistrarGovernor.step E.power opts g (.release c) = some g') :
    Inv E opts { governor := g', requests := s.requests.set i r' } := by
  obtain ⟨hkept, hreleased⟩ := release_callers hacc hgranted h
  have hnone : r'.stage.caller? = none := by
    rw [hstage]
    rfl
  refine ⟨hacc.of_step h, ?_, fun q hq => mem_set_request hall hfollows hq⟩
  refine howns.set hi hc (Or.inr ⟨not_live_released hreleased, ?_⟩) ?_ ?_
  · intro f hf
    rw [hnone] at hf
    cases hf
  · exact fun c' hc' _ => hkept c' hc'
  · rw [hstage]
    trivial

/-- An answer ends the request, or is retried. -/
theorem Inv.of_answered (h : Inv E opts s) {outcome : Outcome Result Warning} {connected : Bool}
    {time time' : ℚ} (hi : s.requests[i]? = some r) (hstage : r.stage = .calling c)
    (hs : answered E opts s i r c outcome connected time time' = some s') : Inv E opts s' := by
  obtain ⟨g, htell, hs⟩ := Option.bind_eq_some_iff.mp hs
  have hcallers := tell_callers htell
  have hacc := accounted_of_tell h.accounted htell
  have howns : Owns g.callers s.requests := by
    rw [hcallers]
    exact h.owns
  have hcaller : r.stage.caller? = some c := by
    rw [hstage]
    rfl
  have hgranted : g.callers[c]? = some .granted := by
    have hholds := howns.holds i r hi
    rw [hstage] at hholds
    exact hholds
  have hfollows := h.follows r (List.mem_of_getElem? hi)
  unfold Follows at hfollows
  simp only [hstage] at hfollows
  obtain ⟨events, hattempts, hattempt, hlog⟩ := hfollows
  cases hsettle : settle E r.client r.command r.attempt outcome with
  | some ending =>
      simp only [hsettle] at hs
      obtain ⟨g', hrelease, rfl⟩ := Option.map_eq_some_iff.mp hs
      refine Inv.of_settled hacc howns h.follows hi hcaller hgranted rfl ?_ hrelease
      show attempts E r.client r.command 0 (r.answers ++ [⟨outcome, connected, true⟩])
        = (r.log ++ signals E outcome ++ [.released], some ending)
      rw [attempts_ends hattempts (a := ⟨outcome, connected, true⟩) (by rwa [← hattempt]), hlog]
      simp [lastTurn]
  | none =>
      simp only [hsettle] at hs
      by_cases hconnected : connected = true
      · rw [if_pos hconnected] at hs
        refine Inv.of_again hacc howns h.follows hi hcaller hgranted (fun f => ⟨?_, ?_⟩) hs
        · show attempts E r.client r.command 0 (r.answers ++ [⟨outcome, true, true⟩])
            = (r.log ++ signals E outcome ++ [.released], none)
          rw [attempts_retries hattempts (a := ⟨outcome, true, true⟩) (by rwa [← hattempt]), hlog]
          simp [turn, reconnects]
        · show r.attempt + 1 = (r.answers ++ [_]).length
          rw [List.length_append, List.length_singleton, hattempt]
      · rw [if_neg hconnected] at hs
        cases Option.some.inj hs
        refine ⟨hacc, ?_, fun q hq => mem_set_request h.follows ?_ hq⟩
        · exact howns.set hi hcaller (Or.inl rfl) (fun c' _ _ => Kept.refl _ c') hgranted
        · exact ⟨events, hattempts, by rw [hattempt], by rwa [← hattempt], by rw [hlog]⟩

/-- **ONE STEP** of the clients. -/
theorem Inv.step (h : Inv E opts s) {a : Action Result Warning} (hs : step E opts s a = some s') :
    Inv E opts s' := by
  cases a with
  | wake j t =>
      obtain ⟨g, hg, rfl⟩ := Option.map_eq_some_iff.mp hs
      exact ⟨h.accounted.of_step hg, h.owns.kept (kept_of_wake hg), h.follows⟩
  | takeSlot j =>
      obtain ⟨g, hg, rfl⟩ := Option.map_eq_some_iff.mp hs
      exact ⟨h.accounted.of_step hg, h.owns.kept (kept_of_takeSlot hg), h.follows⟩
  | resume j t t' =>
      obtain ⟨g, hg, rfl⟩ := Option.map_eq_some_iff.mp hs
      exact ⟨h.accounted.of_step hg, h.owns.kept (kept_of_resume h.accounted hg), h.follows⟩
  | issue client req t =>
      unfold RegistrarClient.step at hs
      cases hprepare : prepare E req with
      | error text =>
          simp only [hprepare] at hs
          cases hs
          exact h
      | ok outbound =>
          simp only [hprepare] at hs
          obtain ⟨g, hg, rfl⟩ := Option.map_eq_some_iff.mp hs
          obtain ⟨hkept, hnew, hlive⟩ := acquire_callers hg
          refine ⟨h.accounted.of_step hg, h.owns.append rfl hkept hnew hlive, ?_⟩
          intro r hr
          rcases List.mem_append.mp hr with hr | hr
          · exact h.follows r hr
          · cases List.mem_singleton.mp hr
            exact ⟨rfl, rfl⟩
  | call j =>
      obtain ⟨r, hr, hs⟩ := Option.bind_eq_some_iff.mp hs
      cases hstage : r.stage with
      | acquiring c =>
          simp only [hstage] at hs
          obtain ⟨hgranted, hs⟩ := Option.ite_none_right_eq_some.mp hs
          cases Option.some.inj hs
          have hfollows := h.follows r (List.mem_of_getElem? hr)
          unfold Follows at hfollows
          simp only [hstage] at hfollows
          refine ⟨h.accounted, ?_, fun q hq => mem_set_request h.follows ?_ hq⟩
          · exact h.owns.set hr (by rw [hstage]; rfl) (Or.inl rfl)
              (fun c' _ _ => Kept.refl _ c') hgranted
          · exact ⟨r.log, hfollows.1, hfollows.2, rfl⟩
      | calling c => simp [hstage] at hs
      | reconnecting c outcome => simp [hstage] at hs
      | settled ending => simp [hstage] at hs
  | answer j outcome connected t t' =>
      obtain ⟨r, hr, hs⟩ := Option.bind_eq_some_iff.mp hs
      cases hstage : r.stage with
      | calling c =>
          simp only [hstage] at hs
          exact h.of_answered hr hstage hs
      | acquiring c => simp [hstage] at hs
      | reconnecting c outcome => simp [hstage] at hs
      | settled ending => simp [hstage] at hs
  | connect j ok t =>
      obtain ⟨r, hr, hs⟩ := Option.bind_eq_some_iff.mp hs
      cases hstage : r.stage with
      | reconnecting c outcome =>
          simp only [hstage] at hs
          have hfollows := h.follows r (List.mem_of_getElem? hr)
          unfold Follows at hfollows
          simp only [hstage] at hfollows
          obtain ⟨events, hattempts, hattempt, hsettle, hlog⟩ := hfollows
          have hgranted := h.owns.holds j r hr
          rw [hstage] at hgranted
          refine Inv.of_again h.accounted h.owns h.follows hr (by rw [hstage]; rfl) hgranted
            (fun f => ⟨?_, ?_⟩) hs
          · show attempts E r.client r.command 0
                (r.answers ++ [⟨outcome, false, ok⟩])
              = (r.log ++ [.reconnected ok] ++ [.released], none)
            rw [attempts_retries hattempts hsettle, hlog]
            simp [turn, reconnects]
          · show r.attempt = (r.answers ++ [_]).length
            rw [List.length_append, List.length_singleton, hattempt]
      | acquiring c => simp [hstage] at hs
      | calling c => simp [hstage] at hs
      | settled ending => simp [hstage] at hs

end Runs

/-! ## What the governor is told -/

section Told

variable {E : Engine} {opts : GovernorOptions} {s s' : Clients Result Warning} {i c : ℕ}
  {r : Pending Result Warning}

theorem signals_told (outcome : Outcome Result Warning) :
    (signals E outcome).filter Event.isTold = signals E outcome := by
  unfold signals
  by_cases hsuccess : outcome.isSuccess = true
  · rw [if_pos hsuccess]
    rfl
  · rw [if_neg hsuccess]
    by_cases hload : outcome.isLoad E = true
    · rw [if_pos hload]
      rfl
    · rw [if_neg hload]
      rfl

/-- What one request asks comes to what all have asked. -/
theorem asked_set {requests : List (Pending Result Warning)} {r' : Pending Result Warning}
    {more : List Event} (hi : requests[i]? = some r) (hr : r'.asked = r.asked ++ more) :
    ((requests.set i r').flatMap Pending.asked).Perm
      (requests.flatMap Pending.asked ++ more) := by
  induction requests generalizing i with
  | nil => cases hi
  | cons q requests ih =>
      cases i with
      | zero =>
          cases hi
          rw [List.set_cons_zero, List.flatMap_cons, List.flatMap_cons, hr, List.append_assoc,
            List.append_assoc]
          exact List.perm_append_comm.append_left _
      | succ i =>
          rw [List.set_cons_succ, List.flatMap_cons, List.flatMap_cons, List.append_assoc]
          exact (ih hi).append_left _

/-- The calls of the governor that a step of the clients makes are those the requests
    ask for. -/
def Asks (E : Engine) (opts : GovernorOptions) (s s' : Clients Result Warning) : Prop :=
  ∃ acts, run (RegistrarGovernor.step E.power opts) s.governor acts = some s'.governor
    ∧ (s'.requests.flatMap Pending.asked).Perm
        (s.requests.flatMap Pending.asked ++ acts.filterMap told)

theorem Asks.of_again {g : Governor} {r' : Pending Result Warning} {time : ℚ}
    {acts : List RegistrarGovernor.Action}
    (hrun : run (RegistrarGovernor.step E.power opts) s.governor acts = some g)
    (hi : s.requests[i]? = some r) (hlog : r'.log.filter Event.isTold
      = r.asked ++ acts.filterMap told)
    (h : again E opts s g i r' c time = some s') : Asks E opts s s' := by
  obtain ⟨g₁, hrelease, h⟩ := Option.bind_eq_some_iff.mp h
  obtain ⟨g₂, hacquire, rfl⟩ := Option.map_eq_some_iff.mp h
  refine ⟨acts ++ ([.release c] ++ [.acquire time]), ?_, ?_⟩
  · have hrelease : run (RegistrarGovernor.step E.power opts) g [.release c] = some g₁ := by
      rw [run_singleton]
      exact hrelease
    have hacquire : run (RegistrarGovernor.step E.power opts) g₁ [.acquire time] = some g₂ := by
      rw [run_singleton]
      exact hacquire
    exact run_append hrun (run_append hrelease hacquire)
  · refine asked_set hi ?_
    show List.filter Event.isTold ((r'.log ++ [.released]) ++ [.acquired]) = _
    rw [List.filter_append, List.filter_append, hlog, List.filterMap_append, List.append_assoc,
      List.append_assoc]
    rfl

theorem Asks.of_answered {outcome : Outcome Result Warning} {connected : Bool}
    {time time' : ℚ} (hi : s.requests[i]? = some r) (hstage : r.stage = .calling c)
    (h : answered E opts s i r c outcome connected time time' = some s') : Asks E opts s s' := by
  obtain ⟨g, htell, h⟩ := Option.bind_eq_some_iff.mp h
  obtain ⟨acts, hrun, hacts, -⟩ := tell_actions htell
  have hasked : (r.log ++ signals E outcome).filter Event.isTold
      = r.asked ++ acts.filterMap told := by
    rw [List.filter_append, signals_told, hacts]
    unfold Pending.asked
    rw [hstage]
    show _ = (r.log ++ []).filter Event.isTold ++ _
    rw [List.append_nil]
  cases hsettle : settle E r.client r.command r.attempt outcome with
  | some ending =>
      simp only [hsettle] at h
      obtain ⟨g', hrelease, rfl⟩ := Option.map_eq_some_iff.mp h
      refine ⟨acts ++ [.release c], run_append hrun ?_, asked_set hi ?_⟩
      · rw [run_singleton]
        exact hrelease
      · show List.filter Event.isTold ((r.log ++ signals E outcome ++ [.released]) ++ []) = _
        rw [List.append_nil, List.filter_append, hasked, List.filterMap_append,
          List.append_assoc]
        rfl
  | none =>
      simp only [hsettle] at h
      by_cases hconnected : connected = true
      · rw [if_pos hconnected] at h
        exact Asks.of_again hrun hi hasked h
      · rw [if_neg hconnected] at h
        cases Option.some.inj h
        refine ⟨acts, hrun, asked_set hi ?_⟩
        show ((r.log ++ signals E outcome) ++ []).filter Event.isTold = _
        rw [List.append_nil, hasked]

/-- **ONE STEP** tells the governor what the requests ask. -/
theorem Asks.step {a : Action Result Warning}
    (hs : RegistrarClient.step E opts s a = some s') : Asks E opts s s' := by
  have hquiet : ∀ {act : RegistrarGovernor.Action} {g : Governor}, told act = none →
      RegistrarGovernor.step E.power opts s.governor act = some g →
      Asks E opts s { s with governor := g } := by
    intro act g hnone hg
    refine ⟨[act], ?_, ?_⟩
    · rw [run_singleton]
      exact hg
    · rw [List.filterMap_cons_none hnone, List.filterMap_nil, List.append_nil]
  cases a with
  | wake j t =>
      obtain ⟨g, hg, rfl⟩ := Option.map_eq_some_iff.mp hs
      exact hquiet rfl hg
  | takeSlot j =>
      obtain ⟨g, hg, rfl⟩ := Option.map_eq_some_iff.mp hs
      exact hquiet rfl hg
  | resume j t t' =>
      obtain ⟨g, hg, rfl⟩ := Option.map_eq_some_iff.mp hs
      exact hquiet rfl hg
  | issue client req t =>
      unfold RegistrarClient.step at hs
      cases hprepare : prepare E req with
      | error text =>
          simp only [hprepare] at hs
          cases hs
          refine ⟨[], rfl, ?_⟩
          rw [List.filterMap_nil, List.append_nil]
      | ok outbound =>
          simp only [hprepare] at hs
          obtain ⟨g, hg, rfl⟩ := Option.map_eq_some_iff.mp hs
          refine ⟨[.acquire t], ?_, ?_⟩
          · rw [run_singleton]
            exact hg
          · rw [List.flatMap_append]
            exact List.Perm.refl _
  | call j =>
      obtain ⟨r, hr, hs⟩ := Option.bind_eq_some_iff.mp hs
      cases hstage : r.stage with
      | acquiring c =>
          simp only [hstage] at hs
          obtain ⟨-, hs⟩ := Option.ite_none_right_eq_some.mp hs
          cases Option.some.inj hs
          refine ⟨[], rfl, asked_set hr ?_⟩
          unfold Pending.asked
          rw [hstage]
          show List.filter Event.isTold ((r.log ++ [.acquired, .called]) ++ [])
            = List.filter Event.isTold (r.log ++ [.acquired]) ++ []
          rw [List.append_nil, List.append_nil, List.filter_append, List.filter_append]
          rfl
      | calling c => simp [hstage] at hs
      | reconnecting c outcome => simp [hstage] at hs
      | settled ending => simp [hstage] at hs
  | answer j outcome connected t t' =>
      obtain ⟨r, hr, hs⟩ := Option.bind_eq_some_iff.mp hs
      cases hstage : r.stage with
      | calling c =>
          simp only [hstage] at hs
          exact Asks.of_answered hr hstage hs
      | acquiring c => simp [hstage] at hs
      | reconnecting c outcome => simp [hstage] at hs
      | settled ending => simp [hstage] at hs
  | connect j ok t =>
      obtain ⟨r, hr, hs⟩ := Option.bind_eq_some_iff.mp hs
      cases hstage : r.stage with
      | reconnecting c outcome =>
          simp only [hstage] at hs
          have hnone : run (RegistrarGovernor.step E.power opts) s.governor [] = some s.governor :=
            rfl
          refine Asks.of_again hnone hr ?_ hs
          unfold Pending.asked
          rw [hstage]
          show List.filter Event.isTold (r.log ++ [.reconnected ok])
            = List.filter Event.isTold (r.log ++ []) ++ []
          rw [List.append_nil, List.append_nil, List.filter_append]
          exact List.append_nil _
      | acquiring c => simp [hstage] at hs
      | calling c => simp [hstage] at hs
      | settled ending => simp [hstage] at hs

/-- A run of the clients is, on the governor, a run of the calls they ask for. -/
theorem governor_run {g₀ : Governor} (h : Steps (step E opts) anyStep
    ({ governor := g₀ } : Clients Result Warning) s) :
    ∃ acts, run (RegistrarGovernor.step E.power opts) g₀ acts = some s.governor
      ∧ (s.requests.flatMap Pending.asked).Perm (acts.filterMap told) := by
  refine h.inv (fun u => ∃ acts, run (RegistrarGovernor.step E.power opts) g₀ acts
      = some u.governor ∧ (u.requests.flatMap Pending.asked).Perm (acts.filterMap told))
    ⟨[], rfl, List.Perm.refl _⟩ ?_
  rintro u a u' ⟨acts, hrun, hperm⟩ - hs
  obtain ⟨more, hmore, hnext⟩ := Asks.step hs
  refine ⟨acts ++ more, run_append hrun hmore, hnext.trans ?_⟩
  rw [List.filterMap_append]
  exact hperm.append_right _

end Told

/-- Where every request has settled, no slot is in flight. -/
theorem Inv.inFlight_zero {E : Engine} {opts : GovernorOptions} {s : Clients Result Warning}
    (h : Inv E opts s) (hsettled : ∀ r ∈ s.requests, ∃ ending, r.stage = .settled ending) :
    s.governor.inFlight = 0 := by
  have hnone : s.governor.callers.countP Phase.holdsSlot = 0 := by
    refine List.countP_eq_zero.mpr fun p hp hholds => ?_
    obtain ⟨c, hc⟩ := List.getElem?_of_mem hp
    have hlive : Live s.governor.callers c := by
      refine ⟨p, hc, ?_⟩
      rintro rfl
      cases hholds
    obtain ⟨i, r, hr, hcaller⟩ := h.owns.owned c hlive
    obtain ⟨ending, hstage⟩ := hsettled r (List.mem_of_getElem? hr)
    rw [hstage] at hcaller
    cases hcaller
  rw [h.accounted.inFlight, hnone]
  rfl

/-- **EVERY REQUEST ENDS WITH ITS SLOT RETURNED**: alone, one that the transport answers
    ends, after one slot acquired and released for each call, and with a response or a
    `ClioRequestError` if and only if it comes to no error that is not classified; among
    any number of others each does what it does alone, and the governor is called as their
    logs say; and once all have settled no slot is in flight. -/
theorem requests_return_slots (E : Engine) :
    (∀ (client : ClioClient) (req : ClioRequest) (answers : List (Answer Result Warning)),
      req.apiVersion = none ∨ req.apiVersion = some (.finite 2) →
      client.maxRetries < answers.length →
      ∃ before last rest events s, answers = before ++ last :: rest
        ∧ request E client req answers = .ok (events, some s)
        ∧ Conduct E client req.command 0 before last events s
        ∧ (s ≠ .overflowed ↔ AllClassified E client answers))
    ∧ ∀ (opts : GovernorOptions) (now : ℚ) (g₀ : Governor) (s : Clients Result Warning),
      construct opts now = some g₀ →
      Steps (step E opts) anyStep { governor := g₀ } s →
      (∀ r ∈ s.requests, ∀ ending, r.stage = .settled ending →
        ∃ before last rest, r.answers = before ++ last :: rest
          ∧ Conduct E r.client r.command 0 before last r.log ending
          ∧ (ending ≠ .overflowed ↔ AllClassified E r.client r.answers))
      ∧ (∃ acts, run (RegistrarGovernor.step E.power opts) g₀ acts = some s.governor
        ∧ (s.requests.flatMap Pending.asked).Perm (acts.filterMap told))
      ∧ ((∀ r ∈ s.requests, ∃ ending, r.stage = .settled ending) →
        s.governor.inFlight = 0) := by
  refine ⟨?_, ?_⟩
  · intro client req answers hversion hlong
    obtain ⟨events, s, hattempts⟩ :
        ∃ events s, attempts E client req.command 0 answers = (events, some s) :=
      attempts_ends_of_long (Nat.zero_le _) (by omega)
    obtain ⟨before, last, rest, rfl, hconduct⟩ :=
      conduct_of_attempts (Nat.zero_le _) hattempts
    refine ⟨before, last, rest, events, s, rfl, ?_, hconduct, hconduct.ends_well_iff⟩
    have hprepare : prepare E req = .ok { req with apiVersion := some (.finite 2) } := by
      unfold prepare
      rcases hversion with hversion | hversion <;> rw [hversion] <;> exact if_pos rfl
    unfold request
    rw [hprepare]
    exact congrArg Except.ok hattempts
  · intro opts now g₀ s hnew hrun
    have hinv : Inv E opts s := by
      refine hrun.inv (Inv E opts) ?_ (fun u a u' hu _ hs => hu.step hs)
      refine ⟨Accounted.of_steps (P := E.power) hnew (Steps.refl g₀), ⟨?_, ?_, ?_⟩, ?_⟩
      · intro i r hr
        cases hr
      · rintro i j c ⟨r, hr, -⟩
        cases hr
      · rintro c ⟨p, hp, -⟩
        rw [construct_eq hnew] at hp
        cases hp
      · exact fun r hr => absurd hr List.not_mem_nil
    refine ⟨?_, governor_run hrun, hinv.inFlight_zero⟩
    intro r hr ending hstage
    have hfollows := hinv.follows r hr
    unfold Follows at hfollows
    simp only [hstage] at hfollows
    obtain ⟨before, last, rest, hsplit, hconduct⟩ :=
      conduct_of_attempts (Nat.zero_le _) hfollows
    refine ⟨before, last, rest, hsplit, hconduct, ?_⟩
    rw [hsplit]
    exact hconduct.ends_well_iff

/-! ## Two requests for one slot -/

/-- A runtime for short chains of causes. -/
def engine : Engine := ⟨fun _ => "2", roundedPower, 5⟩

/-- The transport throws xrpld's `slowDown`. -/
def slowDown : Outcome Unit Unit :=
  .thrown ⟨1, fun _ key => if key = "error" then .string "slowDown" else .undefined, .object 0⟩

def served : Outcome Unit Unit := .success { result := () } "now"

/-- The first request is told to slow down and fails to reconnect; the second one, which
    waited for its slot, waits out the backoff too. -/
def contention : List (Action Unit Unit) :=
  [.issue { endpoint := "clio" } { command := "tx" } 0, .takeSlot 0, .resume 0 0 0, .call 0,
    .issue { endpoint := "clio" } { command := "tx" } 0, .takeSlot 1,
    .answer 0 slowDown false 0 0, .connect 0 false 0, .resume 1 0 0,
    .wake 1 1000, .takeSlot 1, .resume 1 1000 1000, .call 1, .wake 2 1000, .takeSlot 2,
    .answer 1 served true 1000 1000, .resume 2 1000 1000, .call 0,
    .answer 0 served true 1000 1000]

theorem settled_of_caller {Result Warning : Type} {stage : Stage Result Warning}
    (h : stage.caller? = none) : ∃ ending, stage = .settled ending := by
  cases stage with
  | settled ending => exact ⟨ending, rfl⟩
  | acquiring c => cases h
  | calling c => cases h
  | reconnecting c outcome => cases h

theorem requests_return_slots_contention :
    (∃ before last events s, request engine { endpoint := "clio", maxRetries := 1 }
        { command := "tx", apiVersion := some (.finite 2) }
          [⟨slowDown, false, false⟩, ⟨served, true, true⟩] = .ok (events, some s)
        ∧ Conduct engine { endpoint := "clio", maxRetries := 1 } "tx" 0 before last events s)
      ∧ ∃ s : Clients Unit Unit,
        s.requests.map (fun r => r.log.count .called) = [2, 1] ∧ s.governor.inFlight = 0
        ∧ ∃ acts, run (RegistrarGovernor.step roundedPower { maxConcurrent := 1 }) { now := 0 }
            acts = some s.governor
          ∧ (s.requests.flatMap Pending.asked).Perm (acts.filterMap told) := by
  obtain ⟨halone, htogether⟩ := @requests_return_slots Unit Unit engine
  refine ⟨?_, ?_⟩
  · obtain ⟨before, last, rest, events, s, -, hrequest, hconduct, -⟩ :=
      halone { endpoint := "clio", maxRetries := 1 }
        { command := "tx", apiVersion := some (.finite 2) }
        [⟨slowDown, false, false⟩, ⟨served, true, true⟩] (Or.inr rfl) (by decide)
    exact ⟨before, last, events, s, hrequest, hconduct⟩
  · have hrun : (run (step engine { maxConcurrent := 1 })
        ({ governor := { now := 0 } } : Clients Unit Unit) contention).map
          (fun s => s.requests.map fun r => (r.log.count .called, r.stage.caller?))
          = some [(2, none), (1, none)] := by
      decide +kernel
    obtain ⟨s, hsteps, hend⟩ := Steps.exists_of_run _ hrun
    obtain ⟨-, hgovernor, hzero⟩ := htogether { maxConcurrent := 1 } 0 _ s rfl hsteps
    refine ⟨s, ?_, hzero fun r hr => ?_, hgovernor⟩
    · have hcalls := congrArg (List.map Prod.fst) hend
      rw [List.map_map] at hcalls
      exact hcalls
    · have hin : (r.log.count .called, r.stage.caller?) ∈ [(2, none), (1, none)] := by
        rw [← hend]
        exact List.mem_map_of_mem hr
      refine settled_of_caller ?_
      rcases List.mem_pair.mp hin with hpair | hpair
      · exact congrArg Prod.snd hpair
      · exact congrArg Prod.snd hpair

/-- Two errors that are each other's cause end a request at the first call, on any stack. -/
theorem entangled_overflows (E : Engine) :
    request E { endpoint := "clio" } { command := "tx" }
        (List.replicate 6 (⟨.thrown ⟨2, entangled, .object 0⟩, true, true⟩ : Answer Unit Unit))
      = .ok ([.acquired, .called, .released], some .overflowed) := by
  have hclassify : classify E ⟨2, entangled, .object 0⟩ = none := by
    refine Option.eq_none_iff_forall_ne_some.mpr fun c hc => ?_
    exact entangled_unclassified hc
  have hsettle : settle E { endpoint := "clio" } "tx" 0
      (.thrown ⟨2, entangled, .object 0⟩ : Outcome Unit Unit) = some .overflowed := by
    simp only [settle, hclassify]
  have hsignals : signals E (.thrown ⟨2, entangled, .object 0⟩ : Outcome Unit Unit) = [] := by
    unfold signals
    rw [isLoad_thrown, hclassify]
    rfl
  show Except.ok (attempts E _ _ 0 _) = _
  rw [List.replicate_succ, attempts, hsettle]
  show Except.ok (lastTurn E _, _) = _
  unfold lastTurn
  rw [hsignals]
  rfl

/-- The request ends with neither a response nor a `ClioRequestError`. -/
theorem entangled_error_escapes :
    request engine { endpoint := "clio" } { command := "tx" }
        (List.replicate 6 (⟨.thrown ⟨2, entangled, .object 0⟩, true, true⟩ : Answer Unit Unit))
      = .ok ([.acquired, .called, .released], some .overflowed) :=
  entangled_overflows engine

end RegistrarClient
