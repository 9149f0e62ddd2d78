import Registrar.CoveredBalances
import Registrar.LiveTail

/-! # The subscription of the tail

    The source holds the accounts to watch and asks its node for them, and for the
    ledger stream, whenever a socket opens and whenever it is given a new set.  The
    node forgets the subscription with the socket.  What a socket brings before it
    closes, and what the gap tracker makes of the ledgers among it, together account
    for every transaction of an issuer that stays tracked. -/

namespace RegistrarSubscription

open KeyedTable Runs Statements RegistrarMetadata RegistrarArchive RegistrarIngest
open RegistrarBackfill RegistrarWritten RegistrarTail
open RegistrarSweep (mem_distinctBy_id)
open RegistrarLinks (payXrpl payIssuance payArchive mintEntry payEntry)
open RegistrarCovered (payUpstream)

/-! ## The source and its node -/

/-- A message of the node. -/
inductive Item
  | ledger (ledgerIndex : ℕ)
  | transaction (e : BinaryTxEntry)
  deriving DecidableEq

/-- A socket: the requests sent and not answered, those refused, what the node has
    subscribed for it, and the messages on their way. -/
structure Connection where
  requests : List (List String) := []
  refused : List (List String) := []
  subscribed : List String := []
  streaming : Bool := false
  wire : List Item := []
  deriving DecidableEq

/-- The source of one process.  `sets` are the answers of `subscriptionSet` that
    `setAccounts` has not been called with, oldest first, `latest` the newest of all;
    `closed` is the last ledger the node has published, `ledgers` and `messages` what
    arrived. -/
structure Source where
  accounts : List String
  sets : List (List String) := []
  latest : List String := accounts
  connection : Option Connection := none
  closed : ℕ
  ledgers : List ℕ := []
  messages : List BinaryTxEntry := []
  deriving DecidableEq

/-- `#subscribe`, up to its answer; nothing is sent while no socket is open. -/
def subscribe (s : Source) : Source :=
  { s with connection := s.connection.map fun c =>
      { c with requests := c.requests ++ [s.accounts] } }

/-- What the node sends a socket of a ledger. -/
def published (U : Upstream) (n : ℕ) (c : Connection) : List Item :=
  (if c.streaming then [.ledger n] else []) ++
    (c.subscribed.flatMap fun a => (U.accountTx a).filter (·.ledgerIndex = n)).map .transaction

/-- What the node sends of the next ledger. -/
def sent (U : Upstream) (s : Source) : List Item :=
  (s.connection.map (published U (s.closed + 1))).getD []

/-- A message arrives. -/
def arrive (s : Source) : Item → Source
  | .ledger n => { s with ledgers := s.ledgers ++ [n] }
  | .transaction e => { s with messages := s.messages ++ [e] }

inductive Action
  -- the query of `subscriptionSet` is answered
  | read (tracked : List TrackedIssuance) (db : Archive)
  -- its caller goes on, as it does in the order of the answers
  | setAccounts
  | connected
  | answered (k : ℕ)
  | refused (k : ℕ)
  | disconnected
  -- the next ledger, in the order in which the node sends what it has of it, and as often
  | publish (items : List Item)
  | receive

def step (X : Xrpl) (U : Upstream) (s : Source) : Action → Option Source
  | .read tracked db =>
      (subscriptionSet X tracked db).map fun set =>
        { s with sets := s.sets ++ [set], latest := set }
  | .setAccounts =>
      s.sets.head?.map fun set => subscribe { s with accounts := set, sets := s.sets.tail }
  | .connected =>
      if s.connection = none then some (subscribe { s with connection := some {} }) else none
  | .answered k =>
      s.connection.bind fun c => c.requests[k]?.map fun set =>
        { s with connection := some { c with
            requests := c.requests.eraseIdx k
            subscribed := c.subscribed ++ set
            streaming := true } }
  | .refused k =>
      s.connection.bind fun c => c.requests[k]?.map fun set =>
        { s with connection := some { c with
            requests := c.requests.eraseIdx k
            refused := c.refused ++ [set] } }
  | .disconnected => s.connection.map fun _ => { s with connection := none }
  | .publish items =>
      if (∀ item ∈ items, item ∈ sent U s) ∧ ∀ item ∈ sent U s, item ∈ items then
        some { s with
          closed := s.closed + 1
          connection := s.connection.map fun c => { c with wire := c.wire ++ items } }
      else none
  | .receive =>
      s.connection.bind fun c =>
        match c.wire with
        | [] => none
        | item :: wire => some (arrive { s with connection := some { c with wire } } item)

/-- What arrives is the first on the wire. -/
theorem receive_some {X : Xrpl} {U : Upstream} {s s' : Source}
    (h : step X U s .receive = some s') :
    ∃ c item wire, s.connection = some c ∧ c.wire = item :: wire
      ∧ s' = arrive { s with connection := some { c with wire } } item := by
  obtain ⟨c, hc, h⟩ := Option.bind_eq_some_iff.mp h
  cases hwire : c.wire with
  | nil =>
      rw [hwire] at h
      cases h
  | cons item wire =>
      rw [hwire] at h
      cases h
      exact ⟨c, item, wire, hc, hwire, rfl⟩

@[simp] theorem arrive_accounts (s : Source) (item : Item) :
    (arrive s item).accounts = s.accounts := by
  cases item <;> rfl

@[simp] theorem arrive_sets (s : Source) (item : Item) : (arrive s item).sets = s.sets := by
  cases item <;> rfl

@[simp] theorem arrive_latest (s : Source) (item : Item) :
    (arrive s item).latest = s.latest := by
  cases item <;> rfl

@[simp] theorem arrive_connection (s : Source) (item : Item) :
    (arrive s item).connection = s.connection := by
  cases item <;> rfl

/-! ## What the node is asked for -/

/-- An issuer is in the set as long as an issuance of it is tracked. -/
theorem mem_subscriptionSet {X : Xrpl} {tracked : List TrackedIssuance} {db : Archive}
    {set : List String} (h : subscriptionSet X tracked db = some set) {iss : TrackedIssuance}
    (hiss : iss ∈ tracked) (hnames : NamesIssuer iss) {issuer : String}
    (hissuer : trackedIssuerOf X iss = some issuer) : issuer ∈ set := by
  obtain ⟨issuers, hissuers, rfl⟩ := Option.map_eq_some_iff.mp h
  obtain ⟨a, ha, hmem⟩ := mem_issuerAddresses hissuers hiss hnames
  cases Option.some.inj (ha.symm.trans hissuer)
  exact mem_distinctBy_id.mpr (List.mem_append_right _ hmem)

/-- The account is in every set at hand and in all that the socket was asked for. -/
structure Asks (a : String) (s : Source) : Prop where
  accounts : a ∈ s.accounts
  sets : ∀ set ∈ s.sets, a ∈ set
  requests : ∀ c ∈ s.connection, ∀ set ∈ c.requests, a ∈ set
  subscribed : ∀ c ∈ s.connection, c.streaming = true → a ∈ c.subscribed

variable {X : Xrpl} {U : Upstream} {s s' : Source} {a : String}

theorem Asks.subscribe (h : Asks a s) : Asks a (subscribe s) where
  accounts := h.accounts
  sets := h.sets
  requests := by
    intro c' hc' set hset
    obtain ⟨c, hc, rfl⟩ := Option.map_eq_some_iff.mp hc'
    rcases List.mem_append.mp hset with hset | hset
    · exact h.requests c hc set hset
    · rw [List.mem_singleton.mp hset]
      exact h.accounts
  subscribed := by
    intro c' hc' hstreaming
    obtain ⟨c, hc, rfl⟩ := Option.map_eq_some_iff.mp hc'
    exact h.subscribed c hc hstreaming

/-- The issuance is tracked whenever the set is read. -/
def Tracks (iss : TrackedIssuance) : Action → Prop
  | .read tracked _ => iss ∈ tracked
  | _ => True

instance (iss : TrackedIssuance) : (a : Action) → Decidable (Tracks iss a)
  | .read tracked _ => inferInstanceAs (Decidable (iss ∈ tracked))
  | .setAccounts | .connected | .answered _ | .refused _ | .disconnected | .publish _
  | .receive => instDecidableTrue

theorem Asks.step (h : Asks a s) {iss : TrackedIssuance} (hnames : NamesIssuer iss)
    (hissuer : trackedIssuerOf X iss = some a) {act : Action} (htracks : Tracks iss act)
    (hs : RegistrarSubscription.step X U s act = some s') : Asks a s' := by
  cases act with
  | read tracked db =>
      obtain ⟨set, hset, rfl⟩ := Option.map_eq_some_iff.mp hs
      refine { h with sets := fun l hl => ?_ }
      rcases List.mem_append.mp hl with hl | hl
      · exact h.sets l hl
      · rw [List.mem_singleton.mp hl]
        exact mem_subscriptionSet hset htracks hnames hissuer
  | setAccounts =>
      obtain ⟨set, hset, rfl⟩ := Option.map_eq_some_iff.mp hs
      refine Asks.subscribe { h with
        accounts := h.sets set (List.mem_of_mem_head? hset)
        sets := fun l hl => h.sets l (List.mem_of_mem_tail hl) }
  | connected =>
      obtain ⟨-, hs⟩ := Option.ite_none_right_eq_some.mp hs
      cases hs
      refine Asks.subscribe ⟨h.accounts, h.sets, fun c hc set hset => ?_, fun c hc hstream => ?_⟩
      · cases hc
        cases hset
      · cases hc
        cases hstream
  | answered k =>
      obtain ⟨c, hc, hs⟩ := Option.bind_eq_some_iff.mp hs
      obtain ⟨set, hset, rfl⟩ := Option.map_eq_some_iff.mp hs
      refine { h with requests := fun c' hc' l hl => ?_, subscribed := fun c' hc' _ => ?_ }
      · cases hc'
        exact h.requests c hc l (List.mem_of_mem_eraseIdx hl)
      · cases hc'
        exact List.mem_append_right _ (h.requests c hc set (List.mem_of_getElem? hset))
  | refused k =>
      obtain ⟨c, hc, hs⟩ := Option.bind_eq_some_iff.mp hs
      obtain ⟨set, hset, rfl⟩ := Option.map_eq_some_iff.mp hs
      refine { h with requests := fun c' hc' l hl => ?_, subscribed := fun c' hc' hstream => ?_ }
      · cases hc'
        exact h.requests c hc l (List.mem_of_mem_eraseIdx hl)
      · cases hc'
        exact h.subscribed c hc hstream
  | disconnected =>
      obtain ⟨c, hc, rfl⟩ := Option.map_eq_some_iff.mp hs
      refine ⟨h.accounts, h.sets, fun c hc => ?_, fun c hc => ?_⟩
      · cases hc
      · cases hc
  | publish items =>
      obtain ⟨-, hs⟩ := Option.ite_none_right_eq_some.mp hs
      cases hs
      refine ⟨h.accounts, h.sets, fun c' hc' => ?_, fun c' hc' => ?_⟩
      · obtain ⟨c, hc, rfl⟩ := Option.map_eq_some_iff.mp hc'
        exact h.requests c hc
      · obtain ⟨c, hc, rfl⟩ := Option.map_eq_some_iff.mp hc'
        exact h.subscribed c hc
  | receive =>
      obtain ⟨c, item, wire, hc, -, rfl⟩ := receive_some hs
      refine ⟨?_, ?_, ?_, ?_⟩
      · rw [arrive_accounts]
        exact h.accounts
      · rw [arrive_sets]
        exact h.sets
      · rw [arrive_connection]
        rintro c' ⟨⟩
        exact h.requests c hc
      · rw [arrive_connection]
        rintro c' ⟨⟩
        exact h.subscribed c hc

/-! ## What comes of it -/

/-- The message is on its way. -/
def OnWire (s : Source) (item : Item) : Prop := ∃ c ∈ s.connection, item ∈ c.wire

instance (s : Source) (item : Item) : Decidable (OnWire s item) :=
  inferInstanceAs (Decidable (∃ c ∈ s.connection, item ∈ c.wire))

/-- The transactions of a ledger that has come, or is on its way, have come or are on
    their way. -/
def Brings (U : Upstream) (a : String) (s : Source) : Prop :=
  ∀ n, n ∈ s.ledgers ∨ OnWire s (.ledger n) →
    ∀ e ∈ U.accountTx a, e.ledgerIndex = n → e ∈ s.messages ∨ OnWire s (.transaction e)

/-- The ledger a transaction on its way is of. -/
def Item.carries : Item → Option ℕ
  | .ledger _ => none
  | .transaction e => some e.ledgerIndex

/-- No socket closes between a ledger and a transaction of it. -/
def Whole (s : Source) : Action → Prop
  | .disconnected => ∀ c ∈ s.connection, ∀ item ∈ c.wire, ∀ n ∈ item.carries, n ∉ s.ledgers
  | _ => True

instance (s : Source) : (act : Action) → Decidable (Whole s act)
  | .disconnected => inferInstanceAs (Decidable (∀ c ∈ s.connection, ∀ item ∈ c.wire, _))
  | .read _ _ | .setAccounts | .connected | .answered _ | .refused _ | .publish _
  | .receive => instDecidableTrue

theorem Brings.mono {t : Source} (h : Brings U a s)
    (hledgers : ∀ n, n ∈ t.ledgers ∨ OnWire t (.ledger n) → n ∈ s.ledgers ∨ OnWire s (.ledger n))
    (hmessages : ∀ e, e ∈ s.messages ∨ OnWire s (.transaction e) →
      e ∈ t.messages ∨ OnWire t (.transaction e)) : Brings U a t :=
  fun n hn e he hen => hmessages e (h n (hledgers n hn) e he hen)

/-- A socket whose wire is the same brings the same. -/
theorem Brings.of_wire {t : Source} (h : Brings U a s) (hledgers : t.ledgers = s.ledgers)
    (hmessages : t.messages = s.messages)
    (hwire : t.connection.map (·.wire) = s.connection.map (·.wire)) : Brings U a t := by
  have hon : ∀ item, OnWire t item ↔ OnWire s item := by
    intro item
    have hmem : ∀ u : Source, OnWire u item ↔
        ∃ w ∈ u.connection.map (·.wire), item ∈ w := by
      intro u
      constructor
      · rintro ⟨c, hc, hitem⟩
        exact ⟨c.wire, Option.mem_map_of_mem _ hc, hitem⟩
      · rintro ⟨w, hw, hitem⟩
        obtain ⟨c, hc, rfl⟩ := Option.mem_map.mp hw
        exact ⟨c, hc, hitem⟩
    rw [hmem t, hmem s, hwire]
  refine h.mono (fun n hn => ?_) (fun e he => ?_)
  · rw [hledgers, hon] at hn
    exact hn
  · rw [hmessages, hon]
    exact he

/-- The node sends the account's transactions with the ledger. -/
theorem mem_sent {n : ℕ} (hasks : Asks a s) (h : .ledger n ∈ sent U s) :
    n = s.closed + 1 ∧ ∀ e ∈ U.accountTx a, e.ledgerIndex = n → .transaction e ∈ sent U s := by
  unfold sent at h ⊢
  cases hc : s.connection with
  | none =>
      rw [hc] at h
      cases h
  | some c =>
      rw [hc] at h
      rcases List.mem_append.mp h with h | h
      · by_cases hstream : c.streaming = true
        · rw [if_pos hstream] at h
          cases List.mem_singleton.mp h
          refine ⟨rfl, fun e he hen => ?_⟩
          refine List.mem_append_right _ (List.mem_map_of_mem (List.mem_flatMap.mpr ?_))
          exact ⟨a, hasks.subscribed c hc hstream,
            List.mem_filter.mpr ⟨he, decide_eq_true hen⟩⟩
        · rw [if_neg hstream] at h
          cases h
      · obtain ⟨e, -, he⟩ := List.mem_map.mp h
        cases he

theorem Brings.subscribe (h : Brings U a s) : Brings U a (subscribe s) := by
  refine h.of_wire rfl rfl ?_
  show (s.connection.map _).map _ = _
  rw [Option.map_map]
  rfl

/-- What is on the wire after a ledger was on it before, or is of the ledger. -/
theorem onWire_publish {items : List Item} (honly : ∀ item ∈ items, item ∈ sent U s)
    {item : Item} :
    OnWire { s with
      closed := s.closed + 1
      connection := s.connection.map fun c => { c with wire := c.wire ++ items } } item
      ↔ OnWire s item ∨ item ∈ items := by
  constructor
  · rintro ⟨c', hc', hitem⟩
    obtain ⟨c, hc, rfl⟩ := Option.map_eq_some_iff.mp hc'
    exact (List.mem_append.mp hitem).imp (fun hold => ⟨c, hc, hold⟩) id
  · rintro (⟨c, hc, hitem⟩ | hitem)
    · exact ⟨_, Option.mem_map_of_mem _ hc, List.mem_append_left _ hitem⟩
    · cases hc : s.connection with
      | none =>
          have hitem := honly item hitem
          unfold sent at hitem
          rw [hc] at hitem
          cases hitem
      | some c =>
          exact ⟨{ c with wire := c.wire ++ items }, rfl, List.mem_append_right _ hitem⟩

theorem Brings.publish (h : Brings U a s) (hasks : Asks a s) {items : List Item}
    (honly : ∀ item ∈ items, item ∈ sent U s) (hall : ∀ item ∈ sent U s, item ∈ items) :
    Brings U a { s with
      closed := s.closed + 1
      connection := s.connection.map fun c => { c with wire := c.wire ++ items } } := by
  intro n hn e he hen
  rw [onWire_publish honly] at hn ⊢
  rcases hn with hn | hn | hn
  · exact (h n (Or.inl hn) e he hen).imp id Or.inl
  · exact (h n (Or.inr hn) e he hen).imp id Or.inl
  · have hsent := mem_sent hasks (honly _ hn)
    exact Or.inr (Or.inr (hall _ (hsent.2 e he hen)))

/-- What is on the wire is the first item or stays on it. -/
theorem onWire_cons {c : Connection} {item : Item} {wire : List Item}
    (hc : s.connection = some c) (hwire : c.wire = item :: wire) {x : Item} :
    OnWire s x ↔ x = item ∨ x ∈ wire := by
  constructor
  · rintro ⟨c', hc', hx⟩
    rw [hc] at hc'
    cases hc'
    rw [hwire] at hx
    exact List.mem_cons.mp hx
  · intro hx
    refine ⟨c, hc, ?_⟩
    rw [hwire]
    exact List.mem_cons.mpr hx

theorem onWire_arrive {c : Connection} {item : Item} {wire : List Item} {x : Item} :
    OnWire (arrive { s with connection := some { c with wire } } item) x ↔ x ∈ wire := by
  unfold OnWire
  rw [arrive_connection]
  constructor
  · rintro ⟨c', ⟨⟩, hx⟩
    exact hx
  · intro hx
    exact ⟨_, rfl, hx⟩

/-- A message that has arrived has left the wire. -/
theorem Brings.receive (h : Brings U a s) {c : Connection} {item : Item} {wire : List Item}
    (hc : s.connection = some c) (hwire : c.wire = item :: wire) :
    Brings U a (arrive { s with connection := some { c with wire } } item) := by
  have hold : ∀ x, OnWire s x ↔ x = item ∨ x ∈ wire := fun x => onWire_cons hc hwire
  refine h.mono (fun n hn => ?_) (fun e he => ?_)
  · rw [onWire_arrive] at hn
    rw [hold]
    cases item with
    | ledger m =>
        rcases hn with hn | hn
        · rcases List.mem_append.mp hn with hn | hn
          · exact Or.inl hn
          · rw [List.mem_singleton.mp hn]
            exact Or.inr (Or.inl rfl)
        · exact Or.inr (Or.inr hn)
    | transaction t => exact hn.imp id Or.inr
  · rw [onWire_arrive]
    rw [hold] at he
    cases item with
    | ledger m => exact he.imp id (fun he => he.resolve_left nofun)
    | transaction t =>
        rcases he with he | he | he
        · exact Or.inl (List.mem_append_left _ he)
        · cases he
          exact Or.inl (List.mem_append_right _ (List.mem_singleton_self _))
        · exact Or.inr he

theorem Brings.step (h : Brings U a s) (hasks : Asks a s) {act : Action} (hwhole : Whole s act)
    (hs : RegistrarSubscription.step X U s act = some s') : Brings U a s' := by
  cases act with
  | read tracked db =>
      obtain ⟨set, -, rfl⟩ := Option.map_eq_some_iff.mp hs
      exact h.of_wire rfl rfl rfl
  | setAccounts =>
      obtain ⟨set, -, rfl⟩ := Option.map_eq_some_iff.mp hs
      exact Brings.subscribe (h.of_wire rfl rfl rfl)
  | connected =>
      obtain ⟨hnone, hs⟩ := Option.ite_none_right_eq_some.mp hs
      cases hs
      refine Brings.subscribe (h.mono (fun n hn => ?_) (fun e he => ?_))
      · rcases hn with hn | ⟨c, hc, hn⟩
        · exact Or.inl hn
        · cases hc
          cases hn
      · rcases he with he | ⟨c, hc, -⟩
        · exact Or.inl he
        · rw [hnone] at hc
          cases hc
  | answered k =>
      obtain ⟨c, hc, hs⟩ := Option.bind_eq_some_iff.mp hs
      obtain ⟨set, -, rfl⟩ := Option.map_eq_some_iff.mp hs
      refine h.of_wire rfl rfl ?_
      rw [hc]
      rfl
  | refused k =>
      obtain ⟨c, hc, hs⟩ := Option.bind_eq_some_iff.mp hs
      obtain ⟨set, -, rfl⟩ := Option.map_eq_some_iff.mp hs
      refine h.of_wire rfl rfl ?_
      rw [hc]
      rfl
  | disconnected =>
      obtain ⟨c, hc, rfl⟩ := Option.map_eq_some_iff.mp hs
      intro n hn e he hen
      rcases hn with hn | ⟨c', hc', -⟩
      · rcases h n (Or.inl hn) e he hen with hmessage | ⟨c', hc', hwire⟩
        · exact Or.inl hmessage
        · refine absurd ?_ (hwhole c' hc' _ hwire e.ledgerIndex rfl)
          rw [hen]
          exact hn
      · cases hc'
  | publish items =>
      obtain ⟨⟨honly, hall⟩, hs⟩ := Option.ite_none_right_eq_some.mp hs
      cases hs
      exact h.publish hasks honly hall
  | receive =>
      obtain ⟨c, item, wire, hc, hwire, rfl⟩ := receive_some hs
      exact h.receive hc hwire

/-! ## Across reconnects -/

/-- A source that watches the account and has not been started. -/
structure Fresh (a : String) (s : Source) : Prop where
  accounts : a ∈ s.accounts
  sets : s.sets = []
  connection : s.connection = none
  ledgers : s.ledgers = []

theorem Fresh.asks (h : Fresh a s) : Asks a s := by
  refine ⟨h.accounts, ?_, ?_, ?_⟩
  · rw [h.sets]
    intro set hset
    cases hset
  · rw [h.connection]
    intro c hc
    cases hc
  · rw [h.connection]
    intro c hc
    cases hc

theorem Fresh.brings (h : Fresh a s) : Brings U a s := by
  rintro n (hn | ⟨c, hc, -⟩)
  · rw [h.ledgers] at hn
    cases hn
  · rw [h.connection] at hc
    cases hc

/-- **RECONNECTS LOSE NOTHING**: while an issuance stays tracked and no socket closes
    between a ledger and its transactions, each transaction of its issuer in a ledger that
    the tracker has passed has come or is on its way, or its ledger lies in a reported
    gap, however often the socket closed and whichever requests were refused. -/
theorem reconnects_lose_nothing (X : Xrpl) (U : Upstream) {iss : TrackedIssuance}
    (hnames : NamesIssuer iss) {issuer : String} (hissuer : trackedIssuerOf X iss = some issuer)
    {s₀ s : Source} (hfresh : Fresh issuer s₀)
    (hrun : Steps (step X U) (fun u act => Tracks iss act ∧ Whole u act) s₀ s)
    {last reached : ℕ}
    (hreached : ((⟨some last⟩ : GapTracker).observeAll s.ledgers).2.last = some reached)
    {e : BinaryTxEntry} (he : e ∈ U.accountTx issuer) (hlast : last < e.ledgerIndex)
    (hle : e.ledgerIndex ≤ reached) :
    e ∈ s.messages ∨ OnWire s (.transaction e)
      ∨ ∃ r ∈ ((⟨some last⟩ : GapTracker).observeAll s.ledgers).1, r.Covers e.ledgerIndex := by
  have hboth := hrun.inv (fun u => Asks issuer u ∧ Brings U issuer u)
    ⟨hfresh.asks, hfresh.brings⟩
    (fun u act u' hu hok hs =>
      ⟨hu.1.step hnames hissuer hok.1 hs, hu.2.step hu.1 hok.2 hs⟩)
  rcases GapTracker.observed_or_reported hreached hlast hle with hin | hgap
  · rcases hboth.2 _ (Or.inl hin) e he rfl with hmessage | hwire
    · exact Or.inl hmessage
    · exact Or.inr (Or.inl hwire)
  · exact Or.inr (Or.inr hgap)

/-- A source that watches `rIssuer`. -/
def paySource : Source := { accounts := ["rIssuer"], closed := 198 }

theorem paySource_fresh : Fresh "rIssuer" paySource := ⟨by decide, rfl, rfl, rfl⟩

/-- The mint's ledger comes; the payment's is published while the socket is down, and
    the first request of the next socket is refused. -/
def reconnectRun : List Action :=
  [.connected, .answered 0, .publish [.ledger 199],
    .publish [.ledger 200, .transaction mintEntry],
    .receive, .receive, .receive, .disconnected, .publish [], .connected, .refused 0,
    .read [payIssuance] payArchive, .setAccounts, .answered 0, .publish [.ledger 202], .receive]

theorem reconnects_lose_nothing_pay : ∃ s : Source, payEntry ∉ s.messages
    ∧ s.ledgers = [199, 200, 202]
    ∧ ∃ r ∈ ((⟨some 199⟩ : GapTracker).observeAll s.ledgers).1, r.Covers payEntry.ledgerIndex := by
  have hrun : (runChecked (step payXrpl payUpstream)
      (fun u act => Tracks payIssuance act ∧ Whole u act) paySource reconnectRun).map
      (fun s => decide (payEntry ∉ s.messages ∧ s.ledgers = [199, 200, 202]
        ∧ ¬ OnWire s (.transaction payEntry))) = some true := by
    decide +kernel
  obtain ⟨s, hsteps, hend⟩ := Steps.exists_of_runChecked _ hrun
  obtain ⟨hmissing, hledgers, hwire⟩ := of_decide_eq_true hend
  have hnames : NamesIssuer payIssuance := ⟨"MPT", rfl, by decide⟩
  refine ⟨s, hmissing, hledgers, ?_⟩
  rcases reconnects_lose_nothing payXrpl payUpstream hnames rfl paySource_fresh hsteps
    (by rw [hledgers]; rfl : ((⟨some 199⟩ : GapTracker).observeAll s.ledgers).2.last = some 202)
    (by decide : payEntry ∈ payUpstream.accountTx "rIssuer") (by decide) (by decide)
    with h | h | h
  · exact absurd h hmissing
  · exact absurd h hwire
  · exact h

/-- A socket that closes between a ledger and its transaction loses the transaction: the
    tracker has seen the ledger. -/
theorem closing_between_loses : ∃ s : Source,
    Steps (step payXrpl payUpstream) (fun _ act => Tracks payIssuance act) paySource s
      ∧ s.ledgers = [199, 200] ∧ s.connection = none ∧ mintEntry ∉ s.messages := by
  have hrun : (runChecked (step payXrpl payUpstream) (fun _ act => Tracks payIssuance act)
      paySource [.connected, .answered 0, .publish [.ledger 199],
        .publish [.ledger 200, .transaction mintEntry], .receive, .receive, .disconnected]).map
      (fun s => decide (s.ledgers = [199, 200] ∧ s.connection = none
        ∧ mintEntry ∉ s.messages)) = some true := by
    decide +kernel
  obtain ⟨s, hsteps, hend⟩ := Steps.exists_of_runChecked _ hrun
  exact ⟨s, hsteps, of_decide_eq_true hend⟩

/-! ## When nothing is under way -/

/-- What an open socket has been asked last. -/
def Newest (s : Source) (c : Connection) : Prop :=
  s.accounts ∈ c.requests ∨ s.accounts ∈ c.refused
    ∨ (c.streaming = true ∧ ∀ a ∈ s.accounts, a ∈ c.subscribed)

/-- The accounts at hand, or those read last and to be handed over, are the latest; an
    open socket has been asked for those at hand. -/
structure Asked (s : Source) : Prop where
  latest : s.latest = s.sets.getLastD s.accounts
  asked : ∀ c ∈ s.connection, Newest s c

theorem subscribe_newest {c' : Connection} (hc : c' ∈ (subscribe s).connection) :
    Newest (subscribe s) c' := by
  obtain ⟨c, -, rfl⟩ := Option.map_eq_some_iff.mp hc
  exact Or.inl (List.mem_append_right _ (List.mem_singleton_self _))

/-- A request leaves the list of those under way as the one that is answered. -/
theorem eq_or_mem_eraseIdx {l : List (List String)} {k : ℕ} {x y : List String}
    (hx : x ∈ l) (hy : l[k]? = some y) : x = y ∨ x ∈ l.eraseIdx k := by
  obtain ⟨i, hi⟩ := List.mem_iff_getElem?.mp hx
  by_cases hik : i = k
  · rw [hik, hy] at hi
    exact Or.inl (Option.some.inj hi).symm
  · exact Or.inr (List.mem_eraseIdx_iff_getElem?.mpr ⟨i, hik, hi⟩)

theorem Asked.step (h : Asked s) {act : Action}
    (hs : RegistrarSubscription.step X U s act = some s') : Asked s' := by
  cases act with
  | read tracked db =>
      obtain ⟨set, -, rfl⟩ := Option.map_eq_some_iff.mp hs
      refine ⟨?_, h.asked⟩
      show set = (s.sets ++ [set]).getLastD s.accounts
      rw [List.getLastD_concat]
  | setAccounts =>
      obtain ⟨set, hset, rfl⟩ := Option.map_eq_some_iff.mp hs
      refine ⟨?_, fun c hc => subscribe_newest hc⟩
      show s.latest = s.sets.tail.getLastD set
      rw [h.latest]
      cases hsets : s.sets with
      | nil =>
          rw [hsets] at hset
          cases hset
      | cons first rest =>
          rw [hsets] at hset
          cases hset
          exact List.getLastD_cons
  | connected =>
      obtain ⟨-, hs⟩ := Option.ite_none_right_eq_some.mp hs
      cases hs
      exact ⟨h.latest, fun c hc => subscribe_newest hc⟩
  | answered k =>
      obtain ⟨c, hc, hs⟩ := Option.bind_eq_some_iff.mp hs
      obtain ⟨set, hset, rfl⟩ := Option.map_eq_some_iff.mp hs
      refine ⟨h.latest, fun c' hc' => ?_⟩
      cases hc'
      rcases h.asked c hc with hasked | hrefused | ⟨-, hsubscribed⟩
      · rcases eq_or_mem_eraseIdx hasked hset with hthis | hwaits
        · refine Or.inr (Or.inr ⟨rfl, fun a ha => List.mem_append_right _ ?_⟩)
          rw [← hthis]
          exact ha
        · exact Or.inl hwaits
      · exact Or.inr (Or.inl hrefused)
      · exact Or.inr (Or.inr ⟨rfl, fun a ha => List.mem_append_left _ (hsubscribed a ha)⟩)
  | refused k =>
      obtain ⟨c, hc, hs⟩ := Option.bind_eq_some_iff.mp hs
      obtain ⟨set, hset, rfl⟩ := Option.map_eq_some_iff.mp hs
      refine ⟨h.latest, fun c' hc' => ?_⟩
      cases hc'
      rcases h.asked c hc with hasked | hrefused | hsubscribed
      · rcases eq_or_mem_eraseIdx hasked hset with hthis | hwaits
        · exact Or.inr (Or.inl (List.mem_append_right _ (List.mem_singleton.mpr hthis)))
        · exact Or.inl hwaits
      · exact Or.inr (Or.inl (List.mem_append_left _ hrefused))
      · exact Or.inr (Or.inr hsubscribed)
  | disconnected =>
      obtain ⟨c, -, rfl⟩ := Option.map_eq_some_iff.mp hs
      refine ⟨h.latest, fun c' hc' => ?_⟩
      cases hc'
  | publish items =>
      obtain ⟨-, hs⟩ := Option.ite_none_right_eq_some.mp hs
      cases hs
      refine ⟨h.latest, fun c' hc' => ?_⟩
      obtain ⟨c, hc, rfl⟩ := Option.map_eq_some_iff.mp hc'
      exact h.asked c hc
  | receive =>
      obtain ⟨c, item, wire, hc, -, rfl⟩ := receive_some hs
      refine ⟨?_, ?_⟩
      · rw [arrive_latest, arrive_sets, arrive_accounts]
        exact h.latest
      · unfold Newest
        rw [arrive_connection, arrive_accounts]
        rintro c' ⟨⟩
        exact h.asked c hc

/-- **SETTLED MEANS SUBSCRIBED**: once no set waits, no request is under way and the open
    socket was refused none, the node streams that socket the ledgers and the transactions
    of every account of the set read last, however often the socket closed and the set
    changed before, and in whichever order the node answered. -/
theorem settled_subscription (X : Xrpl) (U : Upstream) {s₀ s : Source}
    (hsets₀ : s₀.sets = []) (hlatest₀ : s₀.latest = s₀.accounts)
    (hclosed₀ : s₀.connection = none)
    (hrun : Steps (step X U) anyStep s₀ s)
    (hsets : s.sets = []) {c : Connection} (hc : c ∈ s.connection)
    (hrequests : c.requests = []) (hrefused : c.refused = []) :
    c.streaming = true ∧ ∀ a ∈ s.latest, a ∈ c.subscribed := by
  have hstart : Asked s₀ := by
    refine ⟨?_, fun c hc => ?_⟩
    · rw [hsets₀, hlatest₀]
      rfl
    · rw [hclosed₀] at hc
      cases hc
  have hasked := hrun.inv Asked hstart (fun u act u' hu _ hs => hu.step hs)
  have hlatest : s.latest = s.accounts := by
    rw [hasked.latest, hsets]
    rfl
  rw [hlatest]
  rcases hasked.asked c hc with h | h | h
  · rw [hrequests] at h
    cases h
  · rw [hrefused] at h
    cases h
  · exact h

/-- The first request is answered only after the second, and the set is read and handed
    over while the socket is down. -/
theorem settled_subscription_pay : ∃ s : Source, s.latest = ["rAlice", "rIssuer"] ∧
    ∃ c ∈ s.connection, c.streaming = true ∧ ∀ a ∈ s.latest, a ∈ c.subscribed := by
  have hrun : (run (step payXrpl payUpstream) paySource
      [.connected, .read [] {}, .setAccounts, .answered 1, .answered 0, .disconnected,
        .read [payIssuance] payArchive, .setAccounts, .connected, .answered 0]).map
      (fun s => decide (s.sets = [] ∧ s.latest = ["rAlice", "rIssuer"] ∧
        ∃ c ∈ s.connection, c.requests = [] ∧ c.refused = [])) = some true := by
    decide +kernel
  obtain ⟨s, hsteps, hend⟩ := Steps.exists_of_run _ hrun
  obtain ⟨hsets, hlatest, c, hc, hrequests, hrefused⟩ := of_decide_eq_true hend
  exact ⟨s, hlatest, c, hc, settled_subscription payXrpl payUpstream rfl rfl rfl hsteps
    hsets hc hrequests hrefused⟩

end RegistrarSubscription
