import Registrar.Library.Cycles

/-! # Classifying errors

    `classifyError` says whether what a request threw is a load signal.  Where the
    error itself does not tell, its `cause` is classified in its place; the objects
    are the caller's, and their causes may form a chain of any length, or a cycle.

    A wrapped load signal is seen wherever there is an answer at all, and there is one
    exactly where the causes to follow are fewer than the calls the stack has room for.
    A cycle of errors that leave the answer to their cause has no such room: the guard
    is for an error that is its own cause only. -/

namespace RegistrarClassify

open Cycles Relation

/-! ## Values -/

/-- A number of JavaScript. -/
inductive Number
  | nan
  | infinite (negative : Bool)
  | finite (x : ℚ)
  deriving DecidableEq

/-- `x >= bound`. -/
def Number.atLeast (bound : ℚ) : Number → Bool
  | .nan => false
  | .infinite negative => !negative
  | .finite x => decide (bound ≤ x)

/-- A value of JavaScript; an object is its place among the `n` objects there are.
    `other` is for booleans, functions and what else is no object. -/
inductive Value (n : ℕ)
  | undefined
  | null
  | string (s : String)
  | number (x : Number)
  | object (ref : Fin n)
  | other
  deriving DecidableEq

/-- The properties of the objects. -/
abbrev Heap (n : ℕ) := Fin n → String → Value n

variable {n : ℕ}

def readString (heap : Heap n) (obj : Fin n) (key : String) : Option String :=
  match heap obj key with
  | .string s => some s
  | _ => none

/-! ## The tables -/

/-- xrpld error slugs that mean "back off". -/
def loadErrorCodes : List String :=
  ["slowDown", "tooBusy", "noNetwork", "noCurrent", "noClosed", "amendmentBlocked"]

/-- Error class names of a transport-level problem. -/
def connectionErrorNames : List String :=
  ["DisconnectedError", "NotConnectedError", "ConnectionError", "TimeoutError",
    "ResponseFormatError"]

/-- What `CONNECTION_ERROR_PATTERN` matches, in lower case. -/
def connectionErrorPhrases : List String :=
  ["disconnect", "not connected", "connection closed", "connection reset",
    "connection refused", "connection lost", "connection error", "socket hang up",
    "websocket", "fetch failed", "econnreset", "econnrefused", "epipe", "etimedout",
    "timeout", "time-out", "time out", "timedout", "timed-out", "timed out"]

/-- `CONNECTION_ERROR_PATTERN.test(message)`, which ignores case. -/
def connectionErrorPattern (message : String) : Bool :=
  connectionErrorPhrases.any fun phrase =>
    decide (phrase.toList <:+: message.toList.map Char.toLower)

/-- System and undici error codes of a failed connection. -/
def connectionErrorCodes : List String :=
  ["ECONNRESET", "ECONNREFUSED", "ECONNABORTED", "EPIPE", "ETIMEDOUT", "EHOSTUNREACH",
    "ENETUNREACH", "EAI_AGAIN", "ENOTFOUND", "UND_ERR_SOCKET", "UND_ERR_CONNECT_TIMEOUT",
    "UND_ERR_HEADERS_TIMEOUT", "UND_ERR_BODY_TIMEOUT", "UND_ERR_ABORTED"]

structure ErrorClassification where
  code : Option String
  retryable : Bool
  deriving DecidableEq

/-! ## The classification -/

/-- The slug of an xrpld error response, in `data.error` or on the error itself. -/
def errorSlug (heap : Heap n) (err : Fin n) : Option String :=
  match heap err "data" with
  | .object data => (readString heap data "error").or (readString heap err "error")
  | _ => readString heap err "error"

/-- What the error tells by its slug, its status, its name or its system code.
    `numberToString` is how JavaScript prints a number. -/
def classifyOwn (numberToString : Number → String) (heap : Heap n) (err : Fin n) :
    Option ErrorClassification :=
  match errorSlug heap err with
  | some code => some ⟨some code, decide (code ∈ loadErrorCodes)⟩
  | none =>
      match heap err "httpStatus" with
      | .number status =>
          some ⟨some ("HTTP_" ++ numberToString status),
            decide (status = .finite 429) || status.atLeast 500⟩
      | _ =>
          match (readString heap err "name").filter (· ∈ connectionErrorNames) with
          | some name => some ⟨some name, true⟩
          | none =>
              ((readString heap err "code").filter (· ∈ connectionErrorCodes)).map
                fun sysCode => ⟨some sysCode, true⟩

/-- What its message tells, after all else. -/
def classifyMessage (heap : Heap n) (err : Fin n) : ErrorClassification :=
  match (readString heap err "message").filter connectionErrorPattern with
  | some _ => ⟨some ((readString heap err "name").getD "ConnectionError"), true⟩
  | none => ⟨readString heap err "name", false⟩

/-- `classifyError` on a stack with room for `room` nested calls of it; `none` where they
    overflow it and a `RangeError` is thrown. -/
def classifyError (numberToString : Number → String) (heap : Heap n) :
    ℕ → Value n → Option ErrorClassification
  | 0, _ => none
  | room + 1, .object err =>
      match classifyOwn numberToString heap err with
      | some own => some own
      | none =>
          if heap err "cause" = .undefined ∨ heap err "cause" = .object err then
            some (classifyMessage heap err)
          else
            (classifyError numberToString heap room (heap err "cause")).map fun inner =>
              if inner.retryable then inner else classifyMessage heap err
  | _ + 1, _ => some ⟨none, false⟩

/-- A failed `fetch` hides the socket error beneath it. -/
example : classifyError (fun _ => "") (fun (err : Fin 2) key =>
      if key = "name" then .string (if err = 0 then "TypeError" else "Error")
      else if key = "message" then .string (if err = 0 then "fetch failed" else "read ECONNRESET")
      else if err = 0 ∧ key = "cause" then .object 1
      else if err = 1 ∧ key = "code" then .string "ECONNRESET" else .undefined)
    2 (.object 0) = some ⟨some "ECONNRESET", true⟩ := by
  decide

section Causes

variable {numberToString : Number → String} {heap : Heap n}

/-- What a thrown value is classified as, on a stack that is large enough. -/
def Classifies (numberToString : Number → String) (heap : Heap n) (err : Value n)
    (c : ErrorClassification) : Prop :=
  ∃ room, classifyError numberToString heap room err = some c

/-- It is classified as a load signal. -/
def Retryable (numberToString : Number → String) (heap : Heap n) (err : Value n) : Prop :=
  ∃ c, Classifies numberToString heap err c ∧ c.retryable = true

/-! ## Which errors leave the answer to their cause -/

/-- The error carries no slug and no HTTP status of its own. -/
structure Bare (heap : Heap n) (err : Fin n) : Prop where
  slug : errorSlug heap err = none
  status : ∀ x, heap err "httpStatus" ≠ .number x

/-- Nor is its name or its code one of a failed connection. -/
structure Silent (heap : Heap n) (err : Fin n) : Prop extends Bare heap err where
  name : ∀ name ∈ readString heap err "name", name ∉ connectionErrorNames
  code : ∀ code ∈ readString heap err "code", code ∉ connectionErrorCodes

/-- The value leaves the answer to another one, its cause. -/
def PassesOn (heap : Heap n) (v w : Value n) : Prop :=
  ∃ err, v = .object err ∧ Silent heap err ∧ heap err "cause" = w ∧ w ≠ .undefined ∧ w ≠ v

/-- Fewer causes are to be followed from the value than there is room for calls. -/
def Fits (heap : Heap n) (room : ℕ) (v : Value n) : Prop :=
  ∀ causes, List.IsChain (PassesOn heap) (v :: causes) → causes.length < room

/-- Its causes run into a cycle of errors that leave the answer to their cause. -/
def CyclicCauses (heap : Heap n) (v : Value n) : Prop :=
  ∃ b, ReflTransGen (PassesOn heap) v b ∧ TransGen (PassesOn heap) b b

theorem filter_none_iff {p : String → Bool} {o : Option String} :
    o.filter p = none ↔ ∀ s ∈ o, p s = false := by
  cases o with
  | none => simp
  | some s => simp [Option.filter]

/-- A bare error is silent and does not tell, or tells of a failed connection. -/
theorem classifyOwn_bare (numberToString : Number → String) {err : Fin n}
    (h : Bare heap err) :
    (Silent heap err ∧ classifyOwn numberToString heap err = none)
      ∨ ¬ Silent heap err
        ∧ ∃ code, classifyOwn numberToString heap err = some ⟨some code, true⟩ := by
  have hstatus : ∀ x, heap err "httpStatus" ≠ .number x := h.status
  unfold classifyOwn
  rw [h.slug]
  cases hname : (readString heap err "name").filter (· ∈ connectionErrorNames) with
  | some name =>
      refine Or.inr ⟨fun hsilent => ?_, name, ?_⟩
      · obtain ⟨hread, hin⟩ := Option.filter_eq_some_iff.mp hname
        exact hsilent.name name hread (of_decide_eq_true hin)
      · cases hvalue : heap err "httpStatus" with
        | number x => exact absurd hvalue (hstatus x)
        | _ => rfl
  | none =>
      have hnames : ∀ name ∈ readString heap err "name", name ∉ connectionErrorNames :=
        fun name hin => of_decide_eq_false (filter_none_iff.mp hname name hin)
      cases hcode : (readString heap err "code").filter (· ∈ connectionErrorCodes) with
      | some code =>
          refine Or.inr ⟨fun hsilent => ?_, code, ?_⟩
          · obtain ⟨hread, hin⟩ := Option.filter_eq_some_iff.mp hcode
            exact hsilent.code code hread (of_decide_eq_true hin)
          · cases hvalue : heap err "httpStatus" with
            | number x => exact absurd hvalue (hstatus x)
            | _ => rfl
      | none =>
          refine Or.inl ⟨⟨h, hnames, ?_⟩, ?_⟩
          · exact fun code hin => of_decide_eq_false (filter_none_iff.mp hcode code hin)
          · cases hvalue : heap err "httpStatus" with
            | number x => exact absurd hvalue (hstatus x)
            | _ => rfl

/-- An error that does not tell is silent. -/
theorem silent_of_none {err : Fin n} (h : classifyOwn numberToString heap err = none) :
    Silent heap err := by
  have hbare : Bare heap err := by
    unfold classifyOwn at h
    cases hslug : errorSlug heap err with
    | some code =>
        rw [hslug] at h
        cases h
    | none =>
        refine ⟨hslug, fun x hx => ?_⟩
        rw [hslug, hx] at h
        cases h
  rcases classifyOwn_bare numberToString hbare with ⟨hsilent, -⟩ | ⟨-, code, hcode⟩
  · exact hsilent
  · cases h.symm.trans hcode

/-! ## The recursion -/

/-- An error that tells is classified at once. -/
theorem classifyError_own {err : Fin n} {own : ErrorClassification} {depth : ℕ}
    (h : classifyOwn numberToString heap err = some own) :
    classifyError numberToString heap (depth + 1) (.object err) = some own := by
  unfold classifyError
  rw [h]

/-- One that passes on is classified with its cause. -/
theorem classifyError_passesOn {err : Fin n} {w : Value n} {room : ℕ}
    (h : PassesOn heap (.object err) w) :
    classifyError numberToString heap (room + 1) (.object err)
      = (classifyError numberToString heap room w).map fun c =>
          if c.retryable then c else classifyMessage heap err := by
  obtain ⟨_, herr, hsilent, rfl, hsome, hother⟩ := h
  cases herr
  have hnone : classifyOwn numberToString heap err = none := by
    rcases classifyOwn_bare numberToString hsilent.toBare with ⟨-, hnone⟩ | ⟨hnot, -⟩
    · exact hnone
    · exact absurd hsilent hnot
  rw [classifyError, hnone]
  exact if_neg (not_or.mpr ⟨hsome, hother⟩)

/-- One that does not is classified at once. -/
theorem classifyError_settled (numberToString : Number → String) {v : Value n}
    (h : ∀ w, ¬ PassesOn heap v w) (room : ℕ) :
    ∃ c, classifyError numberToString heap (room + 1) v = some c := by
  cases v with
  | object err =>
      cases hown : classifyOwn numberToString heap err with
      | some own => exact ⟨own, classifyError_own hown⟩
      | none =>
          rw [classifyError, hown]
          by_cases hcause : heap err "cause" = .undefined ∨ heap err "cause" = .object err
          · exact ⟨_, if_pos hcause⟩
          · obtain ⟨hsome, hother⟩ := not_or.mp hcause
            exact absurd ⟨err, rfl, silent_of_none hown, rfl, hsome, hother⟩ (h _)
  | _ => exact ⟨_, rfl⟩

theorem PassesOn.object {v w : Value n} (h : PassesOn heap v w) : ∃ err, v = .object err :=
  ⟨h.choose, h.choose_spec.1⟩

/-- A value has one cause at most. -/
theorem PassesOn.unique {v w w' : Value n} (h : PassesOn heap v w) (h' : PassesOn heap v w') :
    w = w' := by
  obtain ⟨err, rfl, -, rfl, -, -⟩ := h
  obtain ⟨_, herr, -, rfl, -, -⟩ := h'
  cases herr
  rfl

/-- A value that passes on fits where its cause fits in one call less. -/
theorem fits_succ_iff {v w : Value n} {room : ℕ} (h : PassesOn heap v w) :
    Fits heap (room + 1) v ↔ Fits heap room w := by
  constructor
  · intro hfits causes hchain
    have hlength := hfits (w :: causes) (List.isChain_cons_cons.mpr ⟨h, hchain⟩)
    rw [List.length_cons] at hlength
    omega
  · intro hfits causes hchain
    cases causes with
    | nil => exact Nat.succ_pos room
    | cons w' causes =>
        obtain ⟨hpasses, hchain⟩ := List.isChain_cons_cons.mp hchain
        rw [← h.unique hpasses] at hchain
        exact Nat.succ_lt_succ (hfits causes hchain)

/-- **ROOM**: a value is classified exactly where it fits. -/
theorem classified_iff_fits (numberToString : Number → String) {room : ℕ} {v : Value n} :
    (∃ c, classifyError numberToString heap room v = some c) ↔ Fits heap room v := by
  induction room generalizing v with
  | zero =>
      refine ⟨fun ⟨c, hc⟩ => (nomatch hc), fun hfits => ?_⟩
      exact absurd (hfits [] (List.isChain_singleton v)) (lt_irrefl 0)
  | succ room ih =>
      by_cases hpasses : ∃ w, PassesOn heap v w
      · obtain ⟨w, hw⟩ := hpasses
        obtain ⟨err, rfl⟩ := hw.object
        rw [fits_succ_iff hw, ← ih, classifyError_passesOn hw]
        constructor
        · rintro ⟨c, hc⟩
          obtain ⟨inner, hinner, -⟩ := Option.map_eq_some_iff.mp hc
          exact ⟨inner, hinner⟩
        · rintro ⟨inner, hinner⟩
          exact ⟨_, Option.map_eq_some_iff.mpr ⟨inner, hinner, rfl⟩⟩
      · have hnone := not_exists.mp hpasses
        refine ⟨fun _ causes hchain => ?_,
          fun _ => classifyError_settled numberToString hnone room⟩
        cases causes with
        | nil => exact Nat.succ_pos room
        | cons w causes => exact absurd (List.isChain_cons_cons.mp hchain).1 (hnone w)

/-- More room changes no answer. -/
theorem classifyError_mono {room : ℕ} {v : Value n} {c : ErrorClassification}
    (h : classifyError numberToString heap room v = some c) {room' : ℕ} (hle : room ≤ room') :
    classifyError numberToString heap room' v = some c := by
  induction room generalizing v c room' with
  | zero => cases h
  | succ room ih =>
      obtain ⟨room', rfl⟩ : ∃ k, room' = k + 1 := ⟨room' - 1, by omega⟩
      by_cases hpasses : ∃ w, PassesOn heap v w
      · obtain ⟨w, hw⟩ := hpasses
        obtain ⟨err, rfl⟩ := hw.object
        rw [classifyError_passesOn hw] at h ⊢
        obtain ⟨inner, hinner, rfl⟩ := Option.map_eq_some_iff.mp h
        rw [ih hinner (by omega)]
        rfl
      · rw [← h]
        cases v with
        | object err =>
            cases hown : classifyOwn numberToString heap err with
            | some own => rw [classifyError_own hown, classifyError_own hown]
            | none =>
                have hcause : heap err "cause" = .undefined ∨ heap err "cause" = .object err := by
                  by_contra hcause
                  obtain ⟨hsome, hother⟩ := not_or.mp hcause
                  exact hpasses ⟨_, err, rfl, silent_of_none hown, rfl, hsome, hother⟩
                rw [classifyError, classifyError, hown]
                simp only [if_pos hcause]
        | _ => rfl

/-! ## Cycles -/

/-- Where the causes of a value come to an end, some room is enough. -/
theorem fits_of_acc {v : Value n} (h : Acc (flip (PassesOn heap)) v) :
    ∃ room, Fits heap room v := by
  induction h with
  | intro v _ ih =>
      by_cases hpasses : ∃ w, PassesOn heap v w
      · obtain ⟨w, hw⟩ := hpasses
        obtain ⟨room, hfits⟩ := ih w hw
        exact ⟨room + 1, (fits_succ_iff hw).mpr hfits⟩
      · refine ⟨1, fun causes hchain => ?_⟩
        cases causes with
        | nil => exact Nat.one_pos
        | cons w causes =>
            exact absurd ⟨w, (List.isChain_cons_cons.mp hchain).1⟩ hpasses

/-- And only there. -/
theorem acc_of_fits {v : Value n} {room : ℕ} (h : Fits heap room v) :
    Acc (flip (PassesOn heap)) v := by
  induction room generalizing v with
  | zero => exact absurd (h [] (List.isChain_singleton v)) (lt_irrefl 0)
  | succ room ih => exact Acc.intro v fun w hw => ih ((fits_succ_iff hw).mp h)

/-- The values that a chain of causes runs through are those of the objects. -/
def causeOf (heap : Heap n) (err inner : Fin n) : Prop :=
  PassesOn heap (.object err) (.object inner)

theorem acc_object {err : Fin n} (h : Acc (flip (causeOf heap)) err) :
    Acc (flip (PassesOn heap)) (.object err) := by
  induction h with
  | intro err _ ih =>
      refine Acc.intro _ fun w hw => ?_
      cases w with
      | object inner => exact ih inner hw
      | _ =>
          refine Acc.intro _ fun w hnone => ?_
          obtain ⟨_, hvalue, -⟩ := hnone
          cases hvalue

/-- **SOME ROOM IS ENOUGH** unless the causes run into a cycle. -/
theorem fits_iff (heap : Heap n) (v : Value n) :
    (∃ room, Fits heap room v) ↔ ¬ CyclicCauses heap v := by
  constructor
  · rintro ⟨room, hfits⟩ ⟨b, hb, hcycle⟩
    exact not_transGen_of_acc (acc_of_reflTransGen (acc_of_fits hfits) hb) hcycle
  · intro hnot
    refine fits_of_acc ?_
    cases v with
    | object err =>
        refine acc_object (acc_iff_no_cycle.mpr fun b hb hcycle => hnot ⟨.object b, ?_, ?_⟩)
        · exact hb.lift Value.object fun _ _ h => h
        · exact hcycle.lift Value.object fun _ _ h => h
    | _ =>
        refine Acc.intro _ fun w hnone => ?_
        obtain ⟨_, hvalue, -⟩ := hnone
        cases hvalue

/-! ## Wrapping -/

/-- `err` is `inner` wrapped, any number of times, in errors without a slug and a status. -/
inductive Wraps (heap : Heap n) : Value n → Value n → Prop
  | refl (inner : Value n) : Wraps heap inner inner
  | wrap {err : Fin n} {inner : Value n} : Bare heap err →
      Wraps heap (heap err "cause") inner → Wraps heap (.object err) inner

/-- One wrapper keeps a load signal. -/
theorem retryable_of_cause {err : Fin n} (hbare : Bare heap err)
    (h : Retryable numberToString heap (heap err "cause")) :
    Retryable numberToString heap (.object err) := by
  rcases classifyOwn_bare numberToString hbare with
    ⟨hsilent, -⟩ | ⟨-, code, hcode⟩
  · obtain ⟨c, ⟨room, hc⟩, hretry⟩ := h
    by_cases hself : heap err "cause" = .object err
    · rw [hself] at hc
      exact ⟨c, ⟨room, hc⟩, hretry⟩
    · have hsome : heap err "cause" ≠ .undefined := by
        intro hnone
        -- a cause that is no error is not classified as one
        rw [hnone] at hc
        cases room with
        | zero => cases hc
        | succ room =>
            cases hc
            cases hretry
      refine ⟨c, ⟨room + 1, ?_⟩, hretry⟩
      rw [classifyError_passesOn ⟨err, rfl, hsilent, rfl, hsome, hself⟩, hc]
      exact congrArg some (if_pos hretry)
  · exact ⟨_, ⟨1, classifyError_own hcode⟩, rfl⟩

/-- **WRAPPING**: any number of wrappers keeps a load signal. -/
theorem Wraps.retryable {err inner : Value n} (h : Wraps heap err inner)
    (hinner : Retryable numberToString heap inner) : Retryable numberToString heap err := by
  induction h with
  | refl => exact hinner
  | wrap hbare _ ih => exact retryable_of_cause hbare (ih hinner)

end Causes

/-! ## Every thrown value -/

/-- **CLASSIFICATION**: on a stack with room for `room` calls, a thrown value is classified,
    and as a load signal where it wraps one, if and only if fewer causes are to be followed;
    and some room is enough if and only if the causes do not run into a cycle. -/
theorem classifies_and_sees_through_iff (numberToString : Number → String) (heap : Heap n)
    (err : Value n) :
    (∀ room, ((∃ c, classifyError numberToString heap room err = some c)
        ∧ ∀ inner, Wraps heap err inner → Retryable numberToString heap inner →
          ∃ c, classifyError numberToString heap room err = some c ∧ c.retryable = true)
      ↔ Fits heap room err)
    ∧ ((∃ room, Fits heap room err) ↔ ¬ CyclicCauses heap err) := by
  refine ⟨fun room => ⟨fun h => (classified_iff_fits numberToString).mp h.1, fun hfits => ?_⟩,
    fits_iff heap err⟩
  obtain ⟨c, hc⟩ := (classified_iff_fits numberToString).mpr hfits
  refine ⟨⟨c, hc⟩, fun inner hwraps hinner => ⟨c, hc, ?_⟩⟩
  obtain ⟨c', ⟨room', hc'⟩, hretry⟩ := hwraps.retryable hinner
  -- the answers in both rooms are the one in the larger
  have hmax := classifyError_mono hc (le_max_left room room')
  rw [classifyError_mono hc' (le_max_right room room')] at hmax
  cases Option.some.inj hmax
  exact hretry

/-- An error wrapped in `k` errors that do not tell. -/
def wrappers (k : ℕ) : Heap (k + 1) := fun err key =>
  if key = "cause" then
    if h : err.val + 1 < k + 1 then .object ⟨err.val + 1, h⟩ else .undefined
  else .undefined

/-- Whatever room there is, there are causes in a row that do not fit. -/
theorem wrappers_overflow (k : ℕ) : ¬ Fits (wrappers k) k (.object 0) := by
  have hpasses : ∀ i (h : i + 1 < k + 1), PassesOn (wrappers k) (.object ⟨i, by omega⟩)
      (.object ⟨i + 1, h⟩) := by
    intro i h
    refine ⟨_, rfl, ⟨⟨rfl, ?_⟩, ?_, ?_⟩, ?_, ?_, ?_⟩
    · exact fun x hx => nomatch hx
    · exact fun name hname => nomatch hname
    · exact fun code hcode => nomatch hcode
    · show (if _ then (if h : _ then _ else _) else _) = _
      rw [if_pos rfl, dif_pos h]
    · exact fun hc => nomatch hc
    · intro hc
      have hval := congrArg Fin.val (Value.object.inj hc)
      have hval : i + 1 = i := hval
      omega
  have hchain : ∀ m i (h : i + m < k + 1), ∃ causes : List (Value (k + 1)), causes.length = m
      ∧ List.IsChain (PassesOn (wrappers k)) (.object ⟨i, by omega⟩ :: causes) := by
    intro m
    induction m with
    | zero => exact fun i h => ⟨[], rfl, List.isChain_singleton _⟩
    | succ m ih =>
        intro i h
        obtain ⟨causes, hlength, hrest⟩ := ih (i + 1) (by omega)
        exact ⟨_ :: causes, congrArg Nat.succ hlength,
          List.isChain_cons_cons.mpr ⟨hpasses i (by omega), hrest⟩⟩
  obtain ⟨causes, hlength, hlong⟩ := hchain k 0 (by omega)
  intro hfits
  have := hfits causes hlong
  omega

/-- Two errors, each the cause of the other. -/
def entangled : Heap 2 := fun err key =>
  if key = "name" then .string "Error"
  else if key = "message" then .string (if err = 0 then "outer" else "inner")
  else if key = "cause" then .object (if err = 0 then 1 else 0)
  else .undefined

theorem entangled_passesOn {err inner : Fin 2} (h : inner ≠ err) :
    PassesOn entangled (.object err) (.object inner) := by
  refine ⟨err, rfl, ⟨⟨?_, ?_⟩, ?_, ?_⟩, ?_, nofun, fun hc => h (Value.object.inj hc)⟩
  · revert err inner
    decide
  · intro x hx
    cases hx
  · intro name hname
    cases hname
    decide
  · intro code hcode
    cases hcode
  · revert err inner
    decide

/-- The causes to follow from them fit on no stack. -/
theorem entangled_unclassified {numberToString : Number → String} {room : ℕ}
    {c : ErrorClassification}
    (h : classifyError numberToString entangled room (.object 0) = some c) : False := by
  have hfits := (classified_iff_fits numberToString).mp ⟨c, h⟩
  refine not_transGen_of_acc (acc_of_fits hfits) ?_
  exact (TransGen.single (entangled_passesOn (by decide : (1 : Fin 2) ≠ 0))).tail
    (entangled_passesOn (by decide))

/-- They are classified on none. -/
theorem entangled_never_classified :
    ¬ ∃ numberToString room c,
      classifyError numberToString entangled room (.object 0) = some c :=
  fun ⟨_, _, _, h⟩ => entangled_unclassified h

end RegistrarClassify
