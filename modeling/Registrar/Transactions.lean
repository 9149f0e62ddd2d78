import Registrar.Library.Runs

/-! # Transactions over a pool of connections

    `PostgresDatabase.transaction` runs a body on a pooled connection and, where the
    server gave it up for a deadlock or a serialization failure, runs it again.  A
    connection can be lost at any point, also between the commit and its reply.  `Db` is
    a process with any number of such calls under way, and of queries by themselves; the
    statements of a body are whatever it asks for. -/

namespace RegistrarTransactions

open Runs

/-! ## Errors -/

/-- What a query rejects with, or a body throws. -/
structure Failure where
  code : Option String
  message : String
  deriving DecidableEq

/-- `RETRYABLE_CODES`: `deadlock_detected` and `serialization_failure`. -/
def retryableCodes : List String := ["40P01", "40001"]

def isRetryable (err : Failure) : Prop := ∃ code ∈ err.code, code ∈ retryableCodes

instance (err : Failure) : Decidable (isRetryable err) :=
  inferInstanceAs (Decidable (∃ code ∈ err.code, _))

/-! ## Calls and connections -/

section Model

variable (Statement Value : Type)

/-- Where a call is; a number is the connection it holds.  `seen` are the statements of
    the attempt that were answered, and `failed` says that one was rejected. -/
inductive Phase
  | connecting
  | beginning (client : ℕ)
  | running (client : ℕ) (seen : List Statement) (failed : Bool)
  | querying (client : ℕ) (seen : List Statement) (failed : Bool) (statement : Statement)
  | committing (client : ℕ) (seen : List Statement) (failed : Bool) (value : Value)
  | rollingBack (client : ℕ) (error : Failure)
  | sleeping
  | returned (seen : List Statement) (failed : Bool) (value : Value)
  | threw (error : Failure)
  -- a query outside any transaction
  | awaiting (statement : Statement)
  | asking (client : ℕ) (statement : Statement)
  | answered
  deriving DecidableEq

/-- A call of `transaction`, in its attempt. -/
structure Call where
  attempt : ℕ
  phase : Phase Statement Value
  deriving DecidableEq

/-- What the server has on a connection; `dead` is one that is lost. -/
inductive Backend
  | idle
  | «open» (statements : List Statement)
  | aborted
  | dead
  deriving DecidableEq

/-- A committed transaction: whose it was, and what it did. -/
structure Commit where
  call : ℕ
  attempt : ℕ
  statements : List Statement
  value : Value
  deriving DecidableEq

/-- How a query ends: answered, rejected by the server, executed but not readable, or
    with its connection lost before or after it was executed. -/
inductive Reply
  | ok
  | error (e : Failure)
  | unread (e : Failure)
  | lost (executed : Bool) (e : Failure)
  deriving DecidableEq

/-- The calls of a process, its pool and what the server has. -/
structure Db where
  calls : List (Call Statement Value) := []
  idle : List ℕ := []
  size : ℕ := 0
  next : ℕ := 0
  backend : ℕ → Backend Statement := fun _ => .dead
  committed : List (Commit Statement Value) := []

inductive Action
  | start
  | ask (statement : Statement)
  -- the pool hands an idle connection to the call, or opens one
  | reuse (call client : ℕ)
  | connect (call : ℕ)
  | connectFailed (call : ℕ) (e : Failure)
  | asked (call : ℕ) (reply : Reply)
  | begun (call : ℕ) (reply : Reply)
  -- the body goes on
  | query (call : ℕ) (statement : Statement)
  | replied (call : ℕ) (reply : Reply)
  | resolved (call : ℕ) (value : Value)
  | rejected (call : ℕ) (e : Failure)
  | committed (call : ℕ) (reply : Reply)
  | rolledBack (call : ℕ) (ok : Bool)
  | wake (call : ℕ)
  -- a connection is lost, and an idle one is discarded
  | lose (client : ℕ)
  | discard (client : ℕ)

end Model

variable {Statement Value : Type}

/-- The connection a call holds. -/
def Phase.client : Phase Statement Value → Option ℕ
  | .beginning c => some c
  | .running c _ _ => some c
  | .querying c _ _ _ => some c
  | .committing c _ _ _ => some c
  | .rollingBack c _ => some c
  | .asking c _ => some c
  | _ => none

/-- A call that waits for a connection is handed one. -/
def Phase.handed (c : ℕ) : Phase Statement Value → Option (Phase Statement Value)
  | .connecting => some (.beginning c)
  | .awaiting statement => some (.asking c statement)
  | _ => none

/-- The call goes on in another phase. -/
def Db.goOn (d : Db Statement Value) (k : ℕ) (call : Call Statement Value)
    (phase : Phase Statement Value) : Db Statement Value :=
  { d with calls := d.calls.set k { call with phase } }

def Db.setBackend (d : Db Statement Value) (c : ℕ) (b : Backend Statement) :
    Db Statement Value :=
  { d with backend := Function.update d.backend c b }

def Db.log (d : Db Statement Value) (commit : Option (Commit Statement Value)) :
    Db Statement Value :=
  { d with committed := d.committed ++ commit.toList }

/-- `release`: a broken connection is destroyed, any other is idle again. -/
def Db.release (d : Db Statement Value) (c : ℕ) (broken : Bool) : Db Statement Value :=
  if broken then { d with size := d.size - 1 } else { d with idle := c :: d.idle }

/-- What the server has of a transaction after a query of it; `none` where it does not
    end so. -/
def Backend.after (statement : Statement) :
    Backend Statement → Reply → Option (Backend Statement)
  | .«open» done, .ok => some (.«open» (done ++ [statement]))
  | .«open» done, .unread _ => some (.«open» (done ++ [statement]))
  | .«open» _, .error _ => some .aborted
  | .aborted, .error _ => some .aborted
  | .dead, .lost false _ => some .dead
  | .«open» _, .lost _ _ => some .dead
  | .aborted, .lost _ _ => some .dead
  | _, _ => none

def Backend.afterBegin : Backend Statement → Reply → Option (Backend Statement)
  | .idle, .ok => some (.«open» [])
  | .idle, .error _ => some .idle
  | .idle, .lost _ _ => some .dead
  | .dead, .lost false _ => some .dead
  | _, _ => none

/-- What the server has after a query outside any transaction. -/
def Backend.afterQuery : Backend Statement → Reply → Option (Backend Statement)
  | .idle, .ok => some .idle
  | .idle, .error _ => some .idle
  | .idle, .unread _ => some .idle
  | .idle, .lost _ _ => some .dead
  | .dead, .lost false _ => some .dead
  | _, _ => none

/-- What the server has after `COMMIT`, and what it committed: one of an aborted
    transaction is a rollback, and the code of a rejected one says that nothing was done,
    which that of a lost connection does not. -/
def Backend.afterCommit : Backend Statement → Reply →
    Option (Backend Statement × Option (List Statement))
  | .«open» done, .ok => some (.idle, some done)
  | .aborted, .ok => some (.idle, none)
  | .«open» _, .error _ => some (.idle, none)
  | .«open» done, .lost true e => if isRetryable e then none else some (.dead, some done)
  | .«open» _, .lost false _ => some (.dead, none)
  | .aborted, .lost _ _ => some (.dead, none)
  | .dead, .lost false _ => some (.dead, none)
  | _, _ => none

/-- The error a query rejects with. -/
def Reply.failure : Reply → Option Failure
  | .ok => none
  | .error e => some e
  | .unread e => some e
  | .lost _ e => some e

/-- What the server has after `ROLLBACK`. -/
def Backend.afterRollback : Backend Statement → Bool → Option (Backend Statement)
  | .dead, true => none
  | _, true => some .idle
  | _, false => some .dead

/-- How an attempt that failed goes on. -/
def afterFailure (maxRetries attempt : ℕ) (e : Failure) : Phase Statement Value :=
  if ¬ isRetryable e ∨ maxRetries ≤ attempt then .threw e else .sleeping

def step (maxClients maxRetries : ℕ) (d : Db Statement Value) :
    Action Statement Value → Option (Db Statement Value)
  | .start => some { d with calls := d.calls ++ [⟨0, .connecting⟩] }
  | .ask statement => some { d with calls := d.calls ++ [⟨0, .awaiting statement⟩] }
  | .reuse k c => d.calls[k]?.bind fun call => (call.phase.handed c).bind fun phase =>
      if c ∈ d.idle then some { d.goOn k call phase with idle := d.idle.erase c } else none
  | .connect k => d.calls[k]?.bind fun call => (call.phase.handed d.next).bind fun phase =>
      if d.idle = [] ∧ d.size < maxClients then
        some { (d.goOn k call phase).setBackend d.next .idle with
          size := d.size + 1
          next := d.next + 1 }
      else none
  | .connectFailed k e => d.calls[k]?.bind fun call => (call.phase.handed d.next).map fun _ =>
      d.goOn k call (.threw e)
  | .asked k reply => d.calls[k]?.bind fun call =>
      match call.phase with
      | .asking c _ => ((d.backend c).afterQuery reply).map fun b =>
          ((d.goOn k call (match reply.failure with
            | none => .answered
            | some e => .threw e)).setBackend c b).release c reply.failure.isSome
      | _ => none
  | .begun k reply => d.calls[k]?.bind fun call =>
      match call.phase with
      | .beginning c => ((d.backend c).afterBegin reply).map fun b =>
          (d.goOn k call (match reply.failure with
            | none => .running c [] false
            | some e => .rollingBack c e)).setBackend c b
      | _ => none
  | .query k statement => d.calls[k]?.bind fun call =>
      match call.phase with
      | .running c seen failed => some (d.goOn k call (.querying c seen failed statement))
      | _ => none
  | .replied k reply => d.calls[k]?.bind fun call =>
      match call.phase with
      | .querying c seen failed statement => ((d.backend c).after statement reply).map fun b =>
          (d.goOn k call (match reply.failure with
            | none => .running c (seen ++ [statement]) failed
            | some _ => .running c seen true)).setBackend c b
      | _ => none
  | .resolved k value => d.calls[k]?.bind fun call =>
      match call.phase with
      | .running c seen failed => some (d.goOn k call (.committing c seen failed value))
      | _ => none
  | .rejected k e => d.calls[k]?.bind fun call =>
      match call.phase with
      | .running c _ _ => some (d.goOn k call (.rollingBack c e))
      | _ => none
  | .committed k reply => d.calls[k]?.bind fun call =>
      match call.phase with
      | .committing c seen failed value => ((d.backend c).afterCommit reply).map fun b =>
          let logged := d.log (b.2.map fun done => ⟨k, call.attempt, done, value⟩)
          match reply.failure with
          | none => ((logged.goOn k call (.returned seen failed value)).setBackend c b.1).release
              c false
          | some e => (logged.goOn k call (.rollingBack c e)).setBackend c b.1
      | _ => none
  | .rolledBack k ok => d.calls[k]?.bind fun call =>
      match call.phase with
      | .rollingBack c e => ((d.backend c).afterRollback ok).map fun b =>
          ((d.goOn k call (afterFailure maxRetries call.attempt e)).setBackend c b).release
            c (!ok)
      | _ => none
  | .wake k => d.calls[k]?.bind fun call =>
      match call.phase with
      | .sleeping => some { d with calls := d.calls.set k ⟨call.attempt + 1, .connecting⟩ }
      | _ => none
  | .lose c => some (d.setBackend c .dead)
  | .discard c =>
      if c ∈ d.idle then some { d with idle := d.idle.erase c, size := d.size - 1 } else none

/-! ## The invariant -/

/-- The connections the calls hold. -/
def Db.held (d : Db Statement Value) : List ℕ := d.calls.filterMap (·.phase.client)

/-- What was committed for a call. -/
def Db.commitsOf (d : Db Statement Value) (k : ℕ) : List (Commit Statement Value) :=
  d.committed.filter (·.call = k)

/-- No transaction is open on the connection. -/
def Clear (b : Backend Statement) : Prop := b = .idle ∨ b = .dead

/-- The server has what the body was answered, as long as nothing was rejected. -/
def InStep (b : Backend Statement) (seen : List Statement) (failed : Bool) : Prop :=
  failed = false → b = .«open» seen ∨ b = .dead

/-- What holds of a call and its commits in each phase. -/
def PhaseOk (maxRetries k attempt : ℕ) (commits : List (Commit Statement Value))
    (backend : ℕ → Backend Statement) : Phase Statement Value → Prop
  | .connecting => commits = []
  | .beginning c => commits = [] ∧ Clear (backend c)
  | .running c seen failed => commits = [] ∧ InStep (backend c) seen failed
  | .querying c seen failed _ => commits = [] ∧ InStep (backend c) seen failed
  | .committing c seen failed _ => commits = [] ∧ InStep (backend c) seen failed
  | .rollingBack _ e => commits.length ≤ 1 ∧ (isRetryable e → commits = [])
  | .sleeping => commits = [] ∧ attempt < maxRetries
  | .returned seen failed value => commits.length ≤ 1
      ∧ (failed = false → commits = [⟨k, attempt, seen, value⟩])
  | .threw e => commits.length ≤ 1 ∧ (isRetryable e → commits = [])
  | .awaiting _ => commits = []
  | .asking c _ => commits = [] ∧ Clear (backend c)
  | .answered => commits = []

structure CallOk (maxRetries : ℕ) (d : Db Statement Value) (k : ℕ)
    (call : Call Statement Value) : Prop where
  attempt : call.attempt ≤ maxRetries
  phase : PhaseOk maxRetries k call.attempt (d.commitsOf k) d.backend call.phase

/-- The pool counts its connections, within its bound. -/
structure PoolOk (maxClients : ℕ) (clients : List ℕ) (size next : ℕ) : Prop where
  once : clients.Nodup
  counted : clients.length = size
  bound : size ≤ maxClients
  fresh : ∀ c ∈ clients, c < next

structure Inv (maxClients maxRetries : ℕ) (d : Db Statement Value) : Prop where
  calls : ∀ k call, d.calls[k]? = some call → CallOk maxRetries d k call
  known : ∀ c ∈ d.committed, c.call < d.calls.length
  -- each connection of the pool is held by one call or idle
  pool : PoolOk maxClients (d.held ++ d.idle) d.size d.next
  clear : ∀ c ∈ d.idle, Clear (d.backend c)

section Invariant

variable {maxClients maxRetries : ℕ} {d d' : Db Statement Value}

/-- A call takes another form. -/
theorem held_set {calls : List (Call Statement Value)} {k : ℕ} {call : Call Statement Value}
    (hcall : calls[k]? = some call) (call' : Call Statement Value) :
    (call.phase.client.toList ++ (calls.set k call').filterMap (·.phase.client)).Perm
      (call'.phase.client.toList ++ calls.filterMap (·.phase.client)) := by
  obtain ⟨hlt, rfl⟩ := List.getElem?_eq_some_iff.mp hcall
  have hset := (List.set_perm_cons_eraseIdx hlt call').filterMap (·.phase.client)
  have hget := (List.getElem_cons_eraseIdx_perm hlt).filterMap (·.phase.client)
  have hcons : ∀ (x : Call Statement Value) l, (x :: l).filterMap (·.phase.client)
      = x.phase.client.toList ++ l.filterMap (·.phase.client) := by
    intro x l
    cases hx : x.phase.client with
    | none => exact List.filterMap_cons_none hx
    | some c => exact List.filterMap_cons_some hx
  rw [hcons] at hset hget
  refine (hset.append_left _).trans ?_
  rw [← List.append_assoc]
  refine ((List.perm_append_comm).append_right _).trans ?_
  rw [List.append_assoc]
  exact hget.append_left _

/-- Two calls never hold one connection. -/
theorem Inv.alone (hI : Inv maxClients maxRetries d) {j k c : ℕ}
    {call call' : Call Statement Value} (hj : d.calls[j]? = some call)
    (hk : d.calls[k]? = some call') (hc : call.phase.client = some c)
    (hc' : call'.phase.client = some c) : j = k := by
  have hpairwise := List.pairwise_iff_getElem.mp
    (List.pairwise_filterMap.mp (List.nodup_append.mp hI.pool.once).1)
  obtain ⟨hjlt, rfl⟩ := List.getElem?_eq_some_iff.mp hj
  obtain ⟨hklt, rfl⟩ := List.getElem?_eq_some_iff.mp hk
  rcases lt_trichotomy j k with hlt | heq | hlt
  · exact absurd rfl (hpairwise j k hjlt hklt hlt c hc c hc')
  · exact heq
  · exact absurd rfl (hpairwise k j hklt hjlt hlt c hc' c hc)

theorem mem_held {k c : ℕ} {call : Call Statement Value} (hcall : d.calls[k]? = some call)
    (hc : call.phase.client = some c) : c ∈ d.held :=
  List.mem_filterMap.mpr ⟨call, List.mem_of_getElem? hcall, hc⟩

/-- What holds of a call does so as long as its own commits and connection stay. -/
theorem CallOk.frame {k : ℕ} {call : Call Statement Value} (hok : CallOk maxRetries d k call)
    (hcommits : d'.commitsOf k = d.commitsOf k)
    (hbackend : ∀ c ∈ call.phase.client, d'.backend c = d.backend c) :
    CallOk maxRetries d' k call where
  attempt := hok.attempt
  phase := by
    have hphase := hok.phase
    rw [hcommits]
    cases hcall : call.phase with
    | beginning c =>
        rw [hcall] at hphase hbackend
        exact ⟨hphase.1, (hbackend c rfl).symm ▸ hphase.2⟩
    | running c seen failed =>
        rw [hcall] at hphase hbackend
        exact ⟨hphase.1, (hbackend c rfl).symm ▸ hphase.2⟩
    | querying c seen failed statement =>
        rw [hcall] at hphase hbackend
        exact ⟨hphase.1, (hbackend c rfl).symm ▸ hphase.2⟩
    | committing c seen failed value =>
        rw [hcall] at hphase hbackend
        exact ⟨hphase.1, (hbackend c rfl).symm ▸ hphase.2⟩
    | asking c statement =>
        rw [hcall] at hphase hbackend
        exact ⟨hphase.1, (hbackend c rfl).symm ▸ hphase.2⟩
    | _ =>
        rw [hcall] at hphase
        exact hphase

theorem PoolOk.perm {clients clients' : List ℕ} {size next : ℕ}
    (h : PoolOk maxClients clients size next) (hperm : clients'.Perm clients) :
    PoolOk maxClients clients' size next where
  once := hperm.nodup_iff.mpr h.once
  counted := hperm.length_eq.trans h.counted
  bound := h.bound
  fresh c hc := h.fresh c (hperm.mem_iff.mp hc)

/-- A connection is opened. -/
theorem PoolOk.cons {clients : List ℕ} {size next : ℕ}
    (h : PoolOk maxClients clients size next) (hroom : size < maxClients) :
    PoolOk maxClients (next :: clients) (size + 1) (next + 1) where
  once := List.nodup_cons.mpr ⟨fun hin => lt_irrefl next (h.fresh next hin), h.once⟩
  counted := congrArg (· + 1) h.counted
  bound := hroom
  fresh c hc := by
    rcases List.mem_cons.mp hc with rfl | hold
    · exact Nat.lt_succ_self _
    · exact (h.fresh c hold).trans (Nat.lt_succ_self next)

/-- One is destroyed. -/
theorem PoolOk.tail {c : ℕ} {clients : List ℕ} {size next : ℕ}
    (h : PoolOk maxClients (c :: clients) size next) :
    PoolOk maxClients clients (size - 1) next where
  once := (List.nodup_cons.mp h.once).2
  counted := by
    have hsize : clients.length + 1 = size := h.counted
    omega
  bound := (Nat.sub_le size 1).trans h.bound
  fresh c' hc' := h.fresh c' (List.mem_cons_of_mem c hc')

theorem length_le_one {commits : List (Commit Statement Value)} (h : commits = []) :
    commits.length ≤ 1 := by
  rw [h]
  exact Nat.zero_le 1

/-- A call goes on: the others keep their commits and connections. -/
theorem Inv.go (hI : Inv maxClients maxRetries d) {k : ℕ} {call call' : Call Statement Value}
    (hcall : d.calls[k]? = some call) (hcalls : d'.calls = d.calls.set k call')
    (hpool : PoolOk maxClients (d'.held ++ d'.idle) d'.size d'.next)
    (hclear : ∀ c ∈ d'.idle, Clear (d'.backend c))
    (hbackend : ∀ c ∈ d.held, call.phase.client ≠ some c → d'.backend c = d.backend c)
    (hothers : ∀ j, j ≠ k → d'.commitsOf j = d.commitsOf j)
    (hknown : ∀ c ∈ d'.committed, c ∈ d.committed ∨ c.call = k)
    (hok : CallOk maxRetries d' k call') : Inv maxClients maxRetries d' where
  calls := by
    intro j other hj
    rw [hcalls] at hj
    by_cases hjk : j = k
    · subst hjk
      have hlt := (List.getElem?_eq_some_iff.mp hcall).1
      rw [List.getElem?_set_self hlt] at hj
      cases hj
      exact hok
    · rw [List.getElem?_set_ne (Ne.symm hjk)] at hj
      refine (hI.calls j other hj).frame (hothers j hjk) fun c hc => ?_
      refine hbackend c (mem_held hj hc) fun heq => hjk ?_
      exact hI.alone hj hcall hc heq
  known := by
    intro c hc
    rw [hcalls, List.length_set]
    rcases hknown c hc with hold | rfl
    · exact hI.known c hold
    · exact (List.getElem?_eq_some_iff.mp hcall).1
  pool := hpool
  clear := hclear

/-- It keeps its connection, if it holds one. -/
theorem Inv.keep (hI : Inv maxClients maxRetries d) {k : ℕ} {call call' : Call Statement Value}
    (hcall : d.calls[k]? = some call) (hcalls : d'.calls = d.calls.set k call')
    (hclient : call'.phase.client = call.phase.client) (hidle : d'.idle = d.idle)
    (hsize : d'.size = d.size) (hnext : d'.next = d.next)
    (hbackend : ∀ c, call.phase.client ≠ some c → d'.backend c = d.backend c)
    (hothers : ∀ j, j ≠ k → d'.commitsOf j = d.commitsOf j)
    (hknown : ∀ c ∈ d'.committed, c ∈ d.committed ∨ c.call = k)
    (hok : CallOk maxRetries d' k call') : Inv maxClients maxRetries d' := by
  have hheld : d'.held.Perm d.held := by
    have hset := held_set hcall call'
    rw [hclient] at hset
    show (d'.calls.filterMap (·.phase.client)).Perm _
    rw [hcalls]
    exact (List.perm_append_left_iff _).mp hset
  refine hI.go hcall hcalls ?_ ?_ (fun c _ hc => hbackend c hc) hothers hknown hok
  · rw [hsize, hnext, hidle]
    exact hI.pool.perm (hheld.append_right d.idle)
  · intro c hc
    rw [hidle] at hc
    have hfree : call.phase.client ≠ some c := fun heq =>
      List.disjoint_of_nodup_append hI.pool.once (mem_held hcall heq) hc
    rw [hbackend c hfree]
    exact hI.clear c hc

/-- It goes on by itself. -/
theorem Inv.turn (hI : Inv maxClients maxRetries d) {k : ℕ} {call : Call Statement Value}
    {phase : Phase Statement Value} (hcall : d.calls[k]? = some call)
    (hclient : phase.client = call.phase.client)
    (hok : PhaseOk maxRetries k call.attempt (d.commitsOf k) d.backend phase) :
    Inv maxClients maxRetries (d.goOn k call phase) :=
  hI.keep hcall rfl hclient rfl rfl rfl (fun _ _ => rfl) (fun _ _ => rfl) (fun _ hx => Or.inl hx)
    ⟨(hI.calls k call hcall).attempt, hok⟩

/-- It gives its connection back. -/
theorem Inv.giveBack (hI : Inv maxClients maxRetries d) {k c : ℕ}
    {call : Call Statement Value} {phase : Phase Statement Value} {b : Backend Statement}
    {broken : Bool} (hcall : d.calls[k]? = some call) (hc : call.phase.client = some c)
    (hphase : phase.client = none) (hclear : broken = false → Clear b)
    {committed : List (Commit Statement Value)}
    (hothers : ∀ j, j ≠ k → committed.filter (·.call = j) = d.commitsOf j)
    (hknown : ∀ x ∈ committed, x ∈ d.committed ∨ x.call = k)
    (hok : PhaseOk maxRetries k call.attempt (committed.filter (·.call = k))
      (Function.update d.backend c b) phase) :
    Inv maxClients maxRetries
      (((Db.goOn { d with committed } k call phase).setBackend c b).release c broken) := by
  have hset := held_set hcall { call with phase }
  rw [hc, hphase] at hset
  have hheld : (c :: ((d.calls.set k { call with phase }).filterMap (·.phase.client)
      ++ d.idle)).Perm (d.held ++ d.idle) := hset.append_right d.idle
  have hattempt := (hI.calls k call hcall).attempt
  have hother : ∀ c' ∈ d.held, call.phase.client ≠ some c' →
      Function.update d.backend c b c' = d.backend c' := by
    intro c' _ hne
    refine Function.update_of_ne (fun heq => hne ?_) _ _
    rw [heq]
    exact hc
  have hidle : ∀ c' ∈ d.idle, Clear (Function.update d.backend c b c') := by
    intro c' hc'
    have hne : c' ≠ c := fun heq => List.disjoint_of_nodup_append hI.pool.once
      (mem_held hcall hc) (heq ▸ hc')
    rw [Function.update_of_ne hne]
    exact hI.clear c' hc'
  cases broken with
  | true =>
      exact hI.go hcall rfl (hI.pool.perm hheld).tail hidle hother hothers hknown
        ⟨hattempt, hok⟩
  | false =>
      refine hI.go hcall rfl (hI.pool.perm (List.perm_middle.trans hheld)) ?_ hother hothers
        hknown ⟨hattempt, hok⟩
      intro c' hc'
      rcases List.mem_cons.mp hc' with rfl | hold
      · show Clear (Function.update d.backend c' b c')
        rw [Function.update_self]
        exact hclear rfl
      · exact hidle c' hold

/-- What the server has stays in step with the body. -/
theorem InStep.after {b b' : Backend Statement} {seen : List Statement} {failed : Bool}
    (h : InStep b seen failed) {statement : Statement} {reply : Reply}
    (hb : b.after statement reply = some b') :
    (reply.failure = none → InStep b' (seen ++ [statement]) failed) := by
  intro hok hfailed
  cases reply with
  | ok =>
      rcases h hfailed with rfl | rfl
      · cases hb
        exact Or.inl rfl
      · cases hb
  | error e => cases hok
  | unread e => cases hok
  | lost executed e => cases hok

theorem Clear.afterBegin {b b' : Backend Statement} (h : Clear b) {reply : Reply}
    (hb : b.afterBegin reply = some b') (hok : reply.failure = none) : b' = .«open» [] := by
  cases reply with
  | ok =>
      rcases h with rfl | rfl
      · cases hb
        rfl
      · cases hb
  | error e => cases hok
  | unread e => cases hok
  | lost executed e => cases hok

theorem Clear.afterQuery {b b' : Backend Statement} (h : Clear b) {reply : Reply}
    (hb : b.afterQuery reply = some b') (hok : reply.failure = none) : Clear b' := by
  cases reply with
  | ok =>
      rcases h with rfl | rfl
      · cases hb
        exact Or.inl rfl
      · cases hb
  | error e => cases hok
  | unread e => cases hok
  | lost executed e => cases hok

/-- It goes on with its connection, of which the server has something else. -/
theorem Inv.advance (hI : Inv maxClients maxRetries d) {k c : ℕ}
    {call : Call Statement Value} {phase : Phase Statement Value} {b : Backend Statement}
    (hcall : d.calls[k]? = some call) (hc : call.phase.client = some c)
    (hphase : phase.client = some c) {committed : List (Commit Statement Value)}
    (hothers : ∀ j, j ≠ k → committed.filter (·.call = j) = d.commitsOf j)
    (hknown : ∀ x ∈ committed, x ∈ d.committed ∨ x.call = k)
    (hok : PhaseOk maxRetries k call.attempt (committed.filter (·.call = k))
      (Function.update d.backend c b) phase) :
    Inv maxClients maxRetries ((Db.goOn { d with committed } k call phase).setBackend c b) := by
  refine hI.keep hcall rfl (hphase.trans hc.symm) rfl rfl rfl ?_ hothers hknown
    ⟨(hI.calls k call hcall).attempt, hok⟩
  intro c' hne
  refine Function.update_of_ne (fun heq => hne ?_) _ _
  rw [heq]
  exact hc

/-- The server commits for one call. -/
theorem filter_log {k : ℕ} {commit : Option (Commit Statement Value)}
    (hk : ∀ x ∈ commit, x.call = k) :
    (∀ j, j ≠ k → (d.committed ++ commit.toList).filter (·.call = j) = d.commitsOf j)
      ∧ (d.committed ++ commit.toList).filter (·.call = k) = d.commitsOf k ++ commit.toList
      ∧ ∀ x ∈ d.committed ++ commit.toList, x ∈ d.committed ∨ x.call = k := by
  refine ⟨fun j hj => ?_, ?_, fun x hx => ?_⟩
  · have hnone : commit.toList.filter (·.call = j) = [] := by
      refine List.filter_eq_nil_iff.mpr fun x hx => ?_
      rw [decide_eq_true_eq, hk x (Option.mem_toList.mp hx)]
      exact Ne.symm hj
    rw [List.filter_append, hnone, List.append_nil]
    rfl
  · have hall : commit.toList.filter (·.call = k) = commit.toList := by
      refine List.filter_eq_self.mpr fun x hx => ?_
      rw [decide_eq_true_eq]
      exact hk x (Option.mem_toList.mp hx)
    rw [List.filter_append, hall]
    rfl
  · rcases List.mem_append.mp hx with hold | hnew
    · exact Or.inl hold
    · exact Or.inr (hk x (Option.mem_toList.mp hnew))

/-- `COMMIT` is answered: where nothing had been rejected, all of it is committed. -/
theorem afterCommit_answered {b b' : Backend Statement} {done : Option (List Statement)}
    {reply : Reply} (hb : b.afterCommit reply = some (b', done)) (hok : reply.failure = none)
    {seen : List Statement} {failed : Bool} (h : InStep b seen failed) :
    Clear b' ∧ (failed = false → done = some seen) := by
  cases reply with
  | ok =>
      cases b with
      | «open» statements =>
          cases hb
          refine ⟨Or.inl rfl, fun hfailed => ?_⟩
          rcases h hfailed with heq | heq
          · cases heq
            rfl
          · cases heq
      | aborted =>
          cases hb
          refine ⟨Or.inl rfl, fun hfailed => ?_⟩
          rcases h hfailed with heq | heq
          · cases heq
          · cases heq
      | idle => cases hb
      | dead => cases hb
  | error e => cases hok
  | unread e => cases hok
  | lost executed e => cases hok

/-- It is rejected with a code that is retried: nothing is committed. -/
theorem afterCommit_rejected {b b' : Backend Statement} {done : Option (List Statement)}
    {reply : Reply} {e : Failure} (hb : b.afterCommit reply = some (b', done))
    (hfailure : reply.failure = some e) (hretry : isRetryable e) : done = none := by
  cases reply with
  | ok => cases hfailure
  | error e' =>
      cases b with
      | «open» statements => cases hb; rfl
      | aborted => cases hb
      | idle => cases hb
      | dead => cases hb
  | unread e' => cases b <;> cases hb
  | lost executed e' =>
      cases hfailure
      cases executed with
      | false =>
          cases b with
          | «open» statements => cases hb; rfl
          | aborted => cases hb; rfl
          | idle => cases hb
          | dead => cases hb; rfl
      | true =>
          cases b with
          | «open» statements =>
              have hb : (if isRetryable e then none else some (Backend.dead, some statements))
                = some (b', done) := hb
              rw [if_pos hretry] at hb
              cases hb
          | aborted => cases hb; rfl
          | idle => cases hb
          | dead => cases hb

/-- A connection that is lost is clear, and in step with any body. -/
theorem CallOk.lose {k : ℕ} {call : Call Statement Value} (hok : CallOk maxRetries d k call)
    (c : ℕ) : CallOk maxRetries (d.setBackend c .dead) k call where
  attempt := hok.attempt
  phase := by
    have hphase := hok.phase
    have hclear : ∀ c', Clear (d.backend c') → Clear ((d.setBackend c .dead).backend c') := by
      intro c' h
      show Clear (Function.update d.backend c .dead c')
      by_cases hc : c' = c
      · rw [hc, Function.update_self]
        exact Or.inr rfl
      · rw [Function.update_of_ne hc]
        exact h
    have hinStep : ∀ c' seen failed, InStep (d.backend c') seen failed →
        InStep ((d.setBackend c .dead).backend c') seen failed := by
      intro c' seen failed h hfailed
      show Function.update d.backend c .dead c' = _ ∨ Function.update d.backend c .dead c' = _
      by_cases hc : c' = c
      · rw [hc, Function.update_self]
        exact Or.inr rfl
      · rw [Function.update_of_ne hc]
        exact h hfailed
    cases hcall : call.phase with
    | beginning c' =>
        rw [hcall] at hphase
        exact ⟨hphase.1, hclear c' hphase.2⟩
    | running c' seen failed =>
        rw [hcall] at hphase
        exact ⟨hphase.1, hinStep c' seen failed hphase.2⟩
    | querying c' seen failed statement =>
        rw [hcall] at hphase
        exact ⟨hphase.1, hinStep c' seen failed hphase.2⟩
    | committing c' seen failed value =>
        rw [hcall] at hphase
        exact ⟨hphase.1, hinStep c' seen failed hphase.2⟩
    | asking c' statement =>
        rw [hcall] at hphase
        exact ⟨hphase.1, hclear c' hphase.2⟩
    | _ =>
        rw [hcall] at hphase
        exact hphase

/-- A call waits for a connection, and has done nothing. -/
theorem PhaseOk.handed {k attempt c : ℕ} {commits : List (Commit Statement Value)}
    {backend : ℕ → Backend Statement} {phase phase' : Phase Statement Value}
    (hok : PhaseOk maxRetries k attempt commits backend phase)
    (backend' : ℕ → Backend Statement) (h : phase.handed c = some phase') :
    commits = [] ∧ phase.client = none ∧ phase'.client = some c
      ∧ (Clear (backend' c) → PhaseOk maxRetries k attempt commits backend' phase') := by
  cases phase with
  | connecting =>
      cases h
      exact ⟨hok, rfl, rfl, fun hclear => ⟨hok, hclear⟩⟩
  | awaiting statement =>
      cases h
      exact ⟨hok, rfl, rfl, fun hclear => ⟨hok, hclear⟩⟩
  | _ => cases h

/-- It is handed one. -/
theorem Inv.acquire (hI : Inv maxClients maxRetries d) {k c : ℕ}
    {call : Call Statement Value} {phase : Phase Statement Value}
    (hcall : d.calls[k]? = some call) (hphase : call.phase.handed c = some phase)
    (hcalls : d'.calls = d.calls.set k { call with phase })
    (hcommitted : d'.committed = d.committed)
    (hpool : PoolOk maxClients ((c :: d.held) ++ d'.idle) d'.size d'.next)
    (hclear : ∀ c' ∈ c :: d'.idle, Clear (d'.backend c'))
    (hbackend : ∀ c' ∈ d.held, d'.backend c' = d.backend c') :
    Inv maxClients maxRetries d' := by
  have hold := hI.calls k call hcall
  have hsame : ∀ j, d'.commitsOf j = d.commitsOf j := fun j => by
    show d'.committed.filter _ = _
    rw [hcommitted]
    rfl
  obtain ⟨-, hnone, hsome, hok⟩ := hold.phase.handed d'.backend hphase
  have hset := held_set hcall { call with phase }
  rw [hnone, hsome, ← hcalls] at hset
  refine hI.go hcall hcalls (hpool.perm (hset.append_right d'.idle))
    (fun c' hc' => hclear c' (List.mem_cons_of_mem c hc')) (fun c' hc' _ => hbackend c' hc')
    (fun j _ => hsame j) (fun x hx => Or.inl (hcommitted ▸ hx)) ⟨hold.attempt, ?_⟩
  rw [hsame k]
  exact hok (hclear c List.mem_cons_self)

/-- A call begins. -/
theorem Inv.add (hI : Inv maxClients maxRetries d) {phase : Phase Statement Value}
    (hphase : ∀ k backend, PhaseOk maxRetries k 0 [] backend phase)
    (hclient : phase.client = none) :
    Inv maxClients maxRetries { d with calls := d.calls ++ [⟨0, phase⟩] } where
  calls := by
    intro k call hcall
    rw [List.getElem?_append] at hcall
    by_cases hk : k < d.calls.length
    · rw [if_pos hk] at hcall
      exact (hI.calls k call hcall).frame rfl fun _ _ => rfl
    · rw [if_neg hk] at hcall
      rw [List.mem_singleton.mp (List.mem_of_getElem? hcall)]
      have hnone : d.commitsOf k = [] := by
        refine List.filter_eq_nil_iff.mpr fun c hc => ?_
        have hlt := hI.known c hc
        rw [decide_eq_true_eq]
        omega
      refine ⟨Nat.zero_le _, ?_⟩
      show PhaseOk maxRetries k 0 (d.commitsOf k) d.backend phase
      rw [hnone]
      exact hphase k d.backend
  known := by
    intro c hc
    show c.call < (d.calls ++ [_]).length
    rw [List.length_append]
    exact (hI.known c hc).trans_le (Nat.le_add_right _ _)
  pool := by
    have hheld : List.filterMap (fun call : Call Statement Value => call.phase.client)
        (d.calls ++ [⟨0, phase⟩]) = d.held := by
      have hnew : List.filterMap (fun call : Call Statement Value => call.phase.client)
          [⟨0, phase⟩] = [] := List.filterMap_cons_none hclient
      rw [List.filterMap_append, hnew]
      exact List.append_nil _
    show PoolOk maxClients (List.filterMap _ (d.calls ++ [_]) ++ d.idle) d.size d.next
    rw [hheld]
    exact hI.pool
  clear := hI.clear

section Commit

variable {k c : ℕ} {call : Call Statement Value} {seen : List Statement} {failed : Bool}
  {value : Value} {reply : Reply} {b : Backend Statement} {done : Option (List Statement)}

/-- What `COMMIT` adds for the call, which had nothing. -/
theorem Inv.logged (hI : Inv maxClients maxRetries d) (hcall : d.calls[k]? = some call)
    (hphase : call.phase = .committing c seen failed value) (done : Option (List Statement)) :
    let commit : Option (Commit Statement Value) :=
      done.map fun statements => ⟨k, call.attempt, statements, value⟩
    (∀ j, j ≠ k → (d.committed ++ commit.toList).filter (·.call = j) = d.commitsOf j)
      ∧ (d.committed ++ commit.toList).filter (·.call = k) = commit.toList
      ∧ (∀ x ∈ d.committed ++ commit.toList, x ∈ d.committed ∨ x.call = k)
      ∧ commit.toList.length ≤ 1 := by
  intro commit
  have hold := (hI.calls k call hcall).phase
  rw [hphase] at hold
  have hcommit : ∀ x ∈ commit, x.call = k := by
    intro x hx
    obtain ⟨statements, -, rfl⟩ := Option.map_eq_some_iff.mp hx
    rfl
  obtain ⟨hothers, hself, hknown⟩ := filter_log (d := d) hcommit
  refine ⟨hothers, hself.trans (congrArg (· ++ _) hold.1), hknown, ?_⟩
  cases commit with
  | none => exact Nat.zero_le 1
  | some x => exact le_refl 1

/-- `COMMIT` is answered, and the call returns. -/
theorem Inv.commitAnswered (hI : Inv maxClients maxRetries d) (hcall : d.calls[k]? = some call)
    (hphase : call.phase = .committing c seen failed value)
    (hb : (d.backend c).afterCommit reply = some (b, done)) (hreply : reply.failure = none) :
    Inv maxClients maxRetries ((((d.log (done.map fun statements =>
      ⟨k, call.attempt, statements, value⟩)).goOn k call (.returned seen failed value)).setBackend
        c b).release c false) := by
  obtain ⟨hothers, hself, hknown, hlength⟩ := hI.logged hcall hphase done
  have hold := (hI.calls k call hcall).phase
  rw [hphase] at hold
  obtain ⟨hclear, hall⟩ := afterCommit_answered hb hreply hold.2
  refine hI.giveBack hcall (congrArg Phase.client hphase) rfl (fun _ => hclear) hothers hknown
    ⟨(congrArg List.length hself).trans_le hlength, fun hfailed => hself.trans ?_⟩
  rw [hall hfailed]
  rfl

/-- It is not, and the call rolls back. -/
theorem Inv.commitRejected (hI : Inv maxClients maxRetries d) (hcall : d.calls[k]? = some call)
    (hphase : call.phase = .committing c seen failed value)
    (hb : (d.backend c).afterCommit reply = some (b, done)) {e : Failure}
    (hreply : reply.failure = some e) :
    Inv maxClients maxRetries (((d.log (done.map fun statements =>
      ⟨k, call.attempt, statements, value⟩)).goOn k call (.rollingBack c e)).setBackend c b) := by
  obtain ⟨hothers, hself, hknown, hlength⟩ := hI.logged hcall hphase done
  refine hI.advance hcall (congrArg Phase.client hphase) rfl hothers hknown
    ⟨(congrArg List.length hself).trans_le hlength, fun hretry => hself.trans ?_⟩
  rw [afterCommit_rejected hb hreply hretry]
  rfl

end Commit

theorem Clear.afterRollback {b b' : Backend Statement} (h : b.afterRollback true = some b') :
    Clear b' := by
  cases b <;> cases h <;> exact Or.inl rfl

/-- The attempt is over: the call throws, or tries again later. -/
theorem Inv.rolledBack (hI : Inv maxClients maxRetries d) {k c : ℕ}
    {call : Call Statement Value} {e : Failure} {ok : Bool} {b : Backend Statement}
    (hcall : d.calls[k]? = some call) (hphase : call.phase = .rollingBack c e)
    (hb : (d.backend c).afterRollback ok = some b) :
    Inv maxClients maxRetries (((d.goOn k call (afterFailure maxRetries call.attempt
      e)).setBackend c b).release c (!ok)) := by
  have hold := (hI.calls k call hcall).phase
  rw [hphase] at hold
  have hclear : (!ok) = false → Clear b := by
    intro hok
    cases ok with
    | false => cases hok
    | true => exact Clear.afterRollback hb
  unfold afterFailure
  by_cases hend : ¬ isRetryable e ∨ maxRetries ≤ call.attempt
  · rw [if_pos hend]
    exact hI.giveBack hcall (congrArg Phase.client hphase) rfl hclear (fun _ _ => rfl)
      (fun _ hx => Or.inl hx) hold
  · rw [if_neg hend]
    obtain ⟨hretry, hlt⟩ := not_or.mp hend
    exact hI.giveBack hcall (congrArg Phase.client hphase) rfl hclear (fun _ _ => rfl)
      (fun _ hx => Or.inl hx) ⟨hold.2 (not_not.mp hretry), not_le.mp hlt⟩

/-- **THE STEP**: every step keeps the invariant. -/
theorem Inv.step (hI : Inv maxClients maxRetries d) {a : Action Statement Value}
    (h : step maxClients maxRetries d a = some d') : Inv maxClients maxRetries d' := by
  cases a with
  | start =>
      cases Option.some.inj h
      exact hI.add (fun _ _ => rfl) rfl
  | ask statement =>
      cases Option.some.inj h
      exact hI.add (fun _ _ => rfl) rfl
  | reuse k c =>
      obtain ⟨call, hcall, h⟩ := Option.bind_eq_some_iff.mp h
      obtain ⟨phase, hphase, h⟩ := Option.bind_eq_some_iff.mp h
      obtain ⟨hidle, h⟩ := Option.ite_none_right_eq_some.mp h
      cases Option.some.inj h
      have hperm : ((c :: d.held) ++ d.idle.erase c).Perm (d.held ++ d.idle) :=
        List.perm_middle.symm.trans ((List.perm_cons_erase hidle).symm.append_left d.held)
      refine hI.acquire hcall hphase rfl rfl (hI.pool.perm hperm) (fun c' hc' => ?_)
        fun _ _ => rfl
      rcases List.mem_cons.mp hc' with rfl | hin
      · exact hI.clear c' hidle
      · exact hI.clear c' (List.mem_of_mem_erase hin)
  | connect k =>
      obtain ⟨call, hcall, h⟩ := Option.bind_eq_some_iff.mp h
      obtain ⟨phase, hphase, h⟩ := Option.bind_eq_some_iff.mp h
      obtain ⟨⟨hidle, hroom⟩, h⟩ := Option.ite_none_right_eq_some.mp h
      cases Option.some.inj h
      refine hI.acquire hcall hphase rfl rfl (hI.pool.cons hroom) (fun c' hc' => ?_)
        fun c' hc' => ?_
      · show Clear (Function.update d.backend d.next .idle c')
        rcases List.mem_cons.mp hc' with rfl | hin
        · rw [Function.update_self]
          exact Or.inl rfl
        · have hin : c' ∈ d.idle := hin
          rw [hidle] at hin
          cases hin
      · have hlt := hI.pool.fresh c' (List.mem_append_left d.idle hc')
        exact Function.update_of_ne hlt.ne _ _
  | connectFailed k e =>
      obtain ⟨call, hcall, h⟩ := Option.bind_eq_some_iff.mp h
      obtain ⟨phase, hphase, rfl⟩ := Option.map_eq_some_iff.mp h
      obtain ⟨hnone, hclient, -, -⟩ :=
        (hI.calls k call hcall).phase.handed d.backend hphase
      exact hI.turn hcall hclient.symm ⟨length_le_one hnone, fun _ => hnone⟩
  | asked k reply =>
      obtain ⟨call, hcall, h⟩ := Option.bind_eq_some_iff.mp h
      cases hphase : call.phase with
      | asking c statement =>
          simp only [hphase] at h
          obtain ⟨b, hb, rfl⟩ := Option.map_eq_some_iff.mp h
          have hold := (hI.calls k call hcall).phase
          rw [hphase] at hold
          cases hreply : reply.failure with
          | none =>
              exact hI.giveBack hcall (congrArg Phase.client hphase) rfl
                (fun _ => hold.2.afterQuery hb hreply) (fun _ _ => rfl) (fun _ hx => Or.inl hx)
                hold.1
          | some e =>
              exact hI.giveBack hcall (congrArg Phase.client hphase) rfl
                (fun hok => by cases hok) (fun _ _ => rfl) (fun _ hx => Or.inl hx)
                ⟨length_le_one hold.1, fun _ => hold.1⟩
      | _ =>
          simp only [hphase] at h
          cases h
  | begun k reply =>
      obtain ⟨call, hcall, h⟩ := Option.bind_eq_some_iff.mp h
      cases hphase : call.phase with
      | beginning c =>
          simp only [hphase] at h
          obtain ⟨b, hb, rfl⟩ := Option.map_eq_some_iff.mp h
          have hold := (hI.calls k call hcall).phase
          rw [hphase] at hold
          obtain ⟨hnone, hclear⟩ := hold
          cases hreply : reply.failure with
          | none =>
              refine hI.advance hcall (congrArg Phase.client hphase) rfl (fun _ _ => rfl)
                (fun _ hx => Or.inl hx) ⟨hnone, fun _ => Or.inl ?_⟩
              rw [Function.update_self]
              exact hclear.afterBegin hb hreply
          | some e =>
              exact hI.advance hcall (congrArg Phase.client hphase) rfl (fun _ _ => rfl)
                (fun _ hx => Or.inl hx) ⟨length_le_one hnone, fun _ => hnone⟩
      | _ =>
          simp only [hphase] at h
          cases h
  | query k statement =>
      obtain ⟨call, hcall, h⟩ := Option.bind_eq_some_iff.mp h
      cases hphase : call.phase with
      | running c seen failed =>
          simp only [hphase] at h
          cases Option.some.inj h
          have hrunning := (hI.calls k call hcall).phase
          rw [hphase] at hrunning
          exact hI.turn hcall (congrArg Phase.client hphase).symm hrunning
      | _ =>
          simp only [hphase] at h
          cases h
  | replied k reply =>
      obtain ⟨call, hcall, h⟩ := Option.bind_eq_some_iff.mp h
      cases hphase : call.phase with
      | querying c seen failed statement =>
          simp only [hphase] at h
          obtain ⟨b, hb, rfl⟩ := Option.map_eq_some_iff.mp h
          have hold := (hI.calls k call hcall).phase
          rw [hphase] at hold
          obtain ⟨hnone, hstep⟩ := hold
          cases hreply : reply.failure with
          | none =>
              refine hI.advance hcall (congrArg Phase.client hphase) rfl (fun _ _ => rfl)
                (fun _ hx => Or.inl hx) ⟨hnone, ?_⟩
              rw [Function.update_self]
              exact hstep.after hb hreply
          | some e =>
              exact hI.advance hcall (congrArg Phase.client hphase) rfl (fun _ _ => rfl)
                (fun _ hx => Or.inl hx) ⟨hnone, fun hfailed => absurd hfailed (by decide)⟩
      | _ =>
          simp only [hphase] at h
          cases h
  | resolved k value =>
      obtain ⟨call, hcall, h⟩ := Option.bind_eq_some_iff.mp h
      cases hphase : call.phase with
      | running c seen failed =>
          simp only [hphase] at h
          cases Option.some.inj h
          have hrunning := (hI.calls k call hcall).phase
          rw [hphase] at hrunning
          exact hI.turn hcall (congrArg Phase.client hphase).symm hrunning
      | _ =>
          simp only [hphase] at h
          cases h
  | rejected k e =>
      obtain ⟨call, hcall, h⟩ := Option.bind_eq_some_iff.mp h
      cases hphase : call.phase with
      | running c seen failed =>
          simp only [hphase] at h
          cases Option.some.inj h
          have hrunning := (hI.calls k call hcall).phase
          rw [hphase] at hrunning
          exact hI.turn hcall (congrArg Phase.client hphase).symm
            ⟨length_le_one hrunning.1, fun _ => hrunning.1⟩
      | _ =>
          simp only [hphase] at h
          cases h
  | committed k reply =>
      obtain ⟨call, hcall, h⟩ := Option.bind_eq_some_iff.mp h
      cases hphase : call.phase with
      | committing c seen failed value =>
          simp only [hphase] at h
          obtain ⟨⟨b, done⟩, hb, rfl⟩ := Option.map_eq_some_iff.mp h
          cases hreply : reply.failure with
          | none => exact hI.commitAnswered hcall hphase hb hreply
          | some e => exact hI.commitRejected hcall hphase hb hreply
      | _ =>
          simp only [hphase] at h
          cases h
  | rolledBack k ok =>
      obtain ⟨call, hcall, h⟩ := Option.bind_eq_some_iff.mp h
      cases hphase : call.phase with
      | rollingBack c e =>
          simp only [hphase] at h
          obtain ⟨b, hb, rfl⟩ := Option.map_eq_some_iff.mp h
          exact hI.rolledBack hcall hphase hb
      | _ =>
          simp only [hphase] at h
          cases h
  | wake k =>
      obtain ⟨call, hcall, h⟩ := Option.bind_eq_some_iff.mp h
      cases hphase : call.phase with
      | sleeping =>
          simp only [hphase] at h
          cases Option.some.inj h
          have hold := (hI.calls k call hcall).phase
          rw [hphase] at hold
          exact hI.keep hcall rfl (by rw [hphase]; rfl) rfl rfl rfl (fun _ _ => rfl)
            (fun _ _ => rfl) (fun _ hx => Or.inl hx) ⟨hold.2, hold.1⟩
      | _ =>
          simp only [hphase] at h
          cases h
  | lose c =>
      cases Option.some.inj h
      refine ⟨fun k call hcall => (hI.calls k call hcall).lose c, hI.known, hI.pool, ?_⟩
      intro c' hc'
      show Clear (Function.update d.backend c .dead c')
      by_cases hcc : c' = c
      · rw [hcc, Function.update_self]
        exact Or.inr rfl
      · rw [Function.update_of_ne hcc]
        exact hI.clear c' hc'
  | discard c =>
      obtain ⟨hidle, h⟩ := Option.ite_none_right_eq_some.mp h
      cases Option.some.inj h
      have hperm : (c :: (d.held ++ d.idle.erase c)).Perm (d.held ++ d.idle) :=
        List.perm_middle.symm.trans ((List.perm_cons_erase hidle).symm.append_left d.held)
      refine ⟨fun k call hcall => (hI.calls k call hcall).frame rfl fun _ _ => rfl, hI.known,
        (hI.pool.perm hperm).tail, fun c' hc' => hI.clear c' (List.mem_of_mem_erase hc')⟩

/-! ## Every run -/

theorem Inv.init : Inv maxClients maxRetries ({} : Db Statement Value) where
  calls _ _ h := absurd h (by simp)
  known c hc := absurd hc List.not_mem_nil
  pool := ⟨List.nodup_nil, rfl, Nat.zero_le _, fun c hc => absurd hc List.not_mem_nil⟩
  clear c hc := absurd hc List.not_mem_nil

theorem Inv.of_run (hrun : Steps (RegistrarTransactions.step maxClients maxRetries) anyStep
    {} d) :
    Inv maxClients maxRetries d :=
  hrun.inv (Inv maxClients maxRetries) Inv.init fun _ _ _ hI _ hs => hI.step hs

end Invariant

/-- **A CALL COMMITS AT MOST ONCE**: in every run of any number of calls, whatever the server
    rejects and whenever connections are lost, a call makes at most one attempt more than
    its retries and at most one of them is committed; none is where the call throws a
    deadlock, and where it returns what its last attempt did is, all of it, if no statement
    of it was rejected. -/
theorem transaction_commits_once {maxClients maxRetries : ℕ} {d : Db Statement Value}
    (hrun : Steps (step maxClients maxRetries) anyStep {} d) {k : ℕ}
    {call : Call Statement Value} (hcall : d.calls[k]? = some call) :
    call.attempt ≤ maxRetries ∧ (d.commitsOf k).length ≤ 1
      ∧ (∀ e, call.phase = .threw e → isRetryable e → d.commitsOf k = [])
      ∧ ∀ seen value, call.phase = .returned seen false value →
        d.commitsOf k = [⟨k, call.attempt, seen, value⟩] := by
  have hok := (Inv.of_run hrun).calls k call hcall
  have hphase := hok.phase
  refine ⟨hok.attempt, ?_, fun e he hretry => ?_, fun seen value hreturned => ?_⟩
  · cases hp : call.phase with
    | rollingBack c e => rw [hp] at hphase; exact hphase.1
    | returned seen failed value => rw [hp] at hphase; exact hphase.1
    | threw e => rw [hp] at hphase; exact hphase.1
    | connecting =>
        rw [hp] at hphase
        exact length_le_one hphase
    | awaiting statement =>
        rw [hp] at hphase
        exact length_le_one hphase
    | answered =>
        rw [hp] at hphase
        exact length_le_one hphase
    | _ =>
        rw [hp] at hphase
        exact length_le_one hphase.1
  · rw [he] at hphase
    exact hphase.2 hretry
  · rw [hreturned] at hphase
    exact hphase.2 rfl

theorem handed_isSome {phase : Phase Statement Value} {c : ℕ} (c' : ℕ)
    (h : (phase.handed c).isSome) : (phase.handed c').isSome := by
  cases phase with
  | connecting => rfl
  | awaiting statement => rfl
  | _ => cases h

/-- **NO CONNECTION LEAKS**: in every run each connection of the pool is held by one call or
    idle, with no transaction open; there are never more than its bound, and a call waits
    only while that many calls are in an attempt or a query. -/
theorem pool_never_leaks {maxClients maxRetries : ℕ} {d : Db Statement Value}
    (hrun : Steps (step maxClients maxRetries) anyStep {} d) :
    (d.held ++ d.idle).Nodup ∧ d.size = d.held.length + d.idle.length ∧ d.size ≤ maxClients
      ∧ (∀ c ∈ d.idle, d.backend c = .idle ∨ d.backend c = .dead)
      ∧ ∀ k call, d.calls[k]? = some call → (call.phase.handed d.next).isSome →
        (∃ c, (step maxClients maxRetries d (.reuse k c)).isSome)
          ∨ (step maxClients maxRetries d (.connect k)).isSome ∨ d.held.length = maxClients := by
  have hI := Inv.of_run hrun
  have hsize : d.held.length + d.idle.length = d.size :=
    List.length_append.symm.trans hI.pool.counted
  refine ⟨hI.pool.once, hsize.symm, hI.pool.bound, hI.clear, fun k call hcall hwaits => ?_⟩
  cases hidle : d.idle with
  | cons c idle =>
      have hin : c ∈ d.idle := hidle ▸ List.mem_cons_self
      obtain ⟨phase, hphase⟩ := Option.isSome_iff_exists.mp (handed_isSome c hwaits)
      refine Or.inl ⟨c, ?_⟩
      simp only [step, hcall, Option.bind_some, hphase, if_pos hin]
      rfl
  | nil =>
      by_cases hroom : d.size < maxClients
      · have hboth : d.idle = [] ∧ d.size < maxClients := ⟨hidle, hroom⟩
        obtain ⟨phase, hphase⟩ := Option.isSome_iff_exists.mp hwaits
        refine Or.inr (Or.inl ?_)
        simp only [step, hcall, Option.bind_some, hphase, if_pos hboth]
        rfl
      · have hbound := hI.pool.bound
        rw [hidle, List.length_nil] at hsize
        exact Or.inr (Or.inr (by omega))

/-! ## Two calls that deadlock -/

/-- Two calls on a pool of two; the first is given up for a deadlock, waits and is run
    again on a connection that the second left. -/
def deadlockRun : List (Action String ℕ) :=
  [.start, .start, .connect 0, .connect 1, .begun 0 .ok, .begun 1 .ok,
    .query 0 "accounts rA", .replied 0 .ok, .query 1 "accounts rB", .replied 1 .ok,
    .query 0 "accounts rB", .replied 0 (.error ⟨some "40P01", "deadlock detected"⟩),
    .rejected 0 ⟨some "40P01", "deadlock detected"⟩, .rolledBack 0 true,
    .query 1 "accounts rA", .replied 1 .ok, .resolved 1 7, .committed 1 .ok,
    .wake 0, .reuse 0 1, .begun 0 .ok, .query 0 "accounts rA", .replied 0 .ok,
    .query 0 "accounts rB", .replied 0 .ok, .resolved 0 8, .committed 0 .ok]

/-- Both return, and each is committed once. -/
theorem transaction_commits_once_deadlock : ∃ d : Db String ℕ,
    d.committed.length = 2 ∧ d.commitsOf 0 = [⟨0, 1, ["accounts rA", "accounts rB"], 8⟩] := by
  have hrun : (run (step 2 5) {} deadlockRun).map (fun d => decide (d.committed.length = 2
      ∧ d.calls[0]? = some ⟨1, .returned ["accounts rA", "accounts rB"] false 8⟩))
      = some true := by
    decide +kernel
  obtain ⟨d, hsteps, hend⟩ := Steps.exists_of_run _ hrun
  obtain ⟨hlength, hcall⟩ := of_decide_eq_true hend
  exact ⟨d, hlength, (transaction_commits_once hsteps hcall).2.2.2 _ _ rfl⟩

theorem pool_never_leaks_deadlock : ∃ d : Db String ℕ, d.committed.length = 2
    ∧ d.size = d.held.length + d.idle.length ∧ d.size ≤ 2 := by
  have hrun : (run (step 2 5) {} deadlockRun).map (fun d => decide (d.committed.length = 2))
      = some true := by
    decide +kernel
  obtain ⟨d, hsteps, hend⟩ := Steps.exists_of_run _ hrun
  have hpool := pool_never_leaks hsteps
  exact ⟨d, of_decide_eq_true hend, hpool.2.1, hpool.2.2.1⟩

end RegistrarTransactions
