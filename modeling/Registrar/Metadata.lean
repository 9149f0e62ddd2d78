import Registrar.Library.KeyedTable

/-! # Transaction metadata and what is derived from it

    Metadata as the archive reads it: each affected node names the ledger
    object it touches and carries the object's fields before and after.  The
    archive only looks at the fields listed in `Fields`, always through
    `asString` and `asRecord`, so a field of another JSON type is `none` here
    exactly as an absent one is.

    Three readers are defined over it:

    * `mptDeltas` and `iouDeltas`, the signed balance changes of one
      transaction;
    * `holdersInMeta`, the holders of tracked issuances it touches;
    * `latestObjects` with `toMptHolders` and `toIouBalances`, the state of the
      ledger objects after a set of transactions. -/

namespace RegistrarMetadata

open KeyedTable

/-! ## The shape of metadata -/

/-- An amount of an issued currency, as a `RippleState` carries it.  `value`
    is the number its decimal numeral spells. -/
structure Amount where
  value : Option ℚ := none
  currency : Option String := none
  issuer : Option String := none
  deriving DecidableEq

/-- The fields of a ledger object that some reader looks at; `others` are the rest,
    by name, with their JSON texts. -/
structure Fields where
  account : Option String := none
  mptokenIssuanceID : Option String := none
  mptAmount : Option String := none
  flags : Option ℕ := none
  balance : Option Amount := none
  lowLimit : Option Amount := none
  highLimit : Option Amount := none
  others : List (String × String) := []
  deriving DecidableEq

/-- One affected ledger object. -/
structure Node where
  ledgerEntryType : Option String := none
  ledgerIndex : Option String := none
  finalFields : Option Fields := none
  newFields : Option Fields := none
  previousFields : Option Fields := none
  deriving DecidableEq

/-- The wrapper that says what happened to the object. -/
structure AffectedNode where
  createdNode : Option Node := none
  modifiedNode : Option Node := none
  deletedNode : Option Node := none
  deriving DecidableEq

/-- A transaction's metadata.  `affectedNodes` is `none` when the field is not
    an array; an element of it is `none` when it is not a record. -/
structure Meta where
  affectedNodes : Option (List (Option AffectedNode)) := none
  transactionIndex : Option ℕ := none
  deriving DecidableEq

/-- The affected nodes a reader's loop visits. -/
def Meta.nodes (m : Meta) : List AffectedNode :=
  (m.affectedNodes.getD []).filterMap id

/-- `wrapper.CreatedNode ?? wrapper.ModifiedNode ?? wrapper.DeletedNode`. -/
def AffectedNode.node (w : AffectedNode) : Option Node :=
  w.createdNode <|> w.modifiedNode <|> w.deletedNode

/-- `node.FinalFields ?? node.NewFields`. -/
def Node.fields (n : Node) : Option Fields := n.finalFields <|> n.newFields

/-! ## Currency codes -/

/-- The value of a hexadecimal digit. -/
def hexDigit (c : Char) : Option ℕ :=
  if '0' ≤ c ∧ c ≤ '9' then some (c.toNat - '0'.toNat)
  else if 'A' ≤ c ∧ c ≤ 'F' then some (c.toNat - 'A'.toNat + 10)
  else if 'a' ≤ c ∧ c ≤ 'f' then some (c.toNat - 'a'.toNat + 10)
  else none

/-- The bytes a string of hexadecimal digits spells, two digits each. -/
def hexToBytes : List Char → List ℕ
  | hi :: lo :: rest =>
      (16 * (hexDigit hi).getD 0 + (hexDigit lo).getD 0) :: hexToBytes rest
  | _ => []

/-- `length`, in UTF-16 code units. -/
def codeUnits (s : String) : ℕ :=
  (s.toList.map (fun c => if c.toNat < 0x10000 then 1 else 2)).sum

/-- The readable form of a currency code: a 40-digit code is its bytes up to
    the first zero, any other code is itself. -/
def currencyToString (code : String) : String :=
  if codeUnits code = 3 then code
  else if code.length = 40 ∧ code.toList.all (fun c => (hexDigit c).isSome) then
    let out := String.ofList
      (((hexToBytes code.toList).takeWhile (· ≠ 0)).map Char.ofNat)
    if out = "" then code else out
  else code

/-! ## MPT balance changes -/

/-- `BigInt(s)` for a decimal numeral, signed or not, or the empty string;
    `none` when it throws. -/
def bigInt (s : String) : Option ℤ :=
  match s.toList with
  | [] => some 0
  | '-' :: digits => (digitsValue digits).map (fun n => -(n : ℤ))
  | '+' :: digits => (digitsValue digits).map (fun n => (n : ℤ))
  | digits => (digitsValue digits).map (fun n => (n : ℤ))
where
  /-- The value of a non-empty string of decimal digits. -/
  digitsValue : List Char → Option ℕ
    | [] => none
    | c :: cs => (c :: cs).foldl (fun acc d => acc.bind fun n =>
        if '0' ≤ d ∧ d ≤ '9' then some (10 * n + (d.toNat - '0'.toNat))
        else none) (some 0)

/-- An `MPTAmount` as an integer: absent, empty or malformed is zero. -/
def amount (value : Option String) : ℤ :=
  match value with
  | none => 0
  | some s => if s = "" then 0 else (bigInt s).getD 0

/-- A signed integer balance change of one account. -/
structure AccountDelta where
  account : String
  delta : ℤ
  deriving DecidableEq

/-- The body of the loop of `mptDeltas` over the affected nodes. -/
def mptNodeDelta (mptIssuanceId : String) (w : AffectedNode) :
    Option AccountDelta :=
  match w.node with
  | none => none
  | some node =>
      if node.ledgerEntryType ≠ some "MPToken" then none
      else match node.fields with
        | none => none
        | some fields =>
            if fields.mptokenIssuanceID ≠ some mptIssuanceId then none
            else match fields.account with
              | none => none
              | some account =>
                  if account = "" then none
                  else
                    let change : ℤ × ℤ :=
                      if w.createdNode.isSome then (0, amount fields.mptAmount)
                      else if w.modifiedNode.isSome then
                        (amount (node.previousFields.bind (·.mptAmount)),
                          amount fields.mptAmount)
                      else (amount fields.mptAmount, 0)
                    let delta := change.2 - change.1
                    if delta = 0 then none else some ⟨account, delta⟩

/-- The per-account MPT balance changes of a transaction. -/
def mptDeltas (m : Meta) (mptIssuanceId : String) : List AccountDelta :=
  m.nodes.filterMap (mptNodeDelta mptIssuanceId)

/-! ## IOU balance changes -/

/-- The sign of `Balance` from the holder's side of the line. -/
inductive Sign
  | plus
  | minus
  deriving DecidableEq

/-- The holder of a trust line and the sign of its balance. -/
structure HolderInfo where
  holder : String
  sign : Sign
  deriving DecidableEq

def balanceCurrency (fields : Fields) : Option String :=
  (fields.balance.bind (·.currency)).map currencyToString

def amountIssuer (value : Option Amount) : Option String :=
  value.bind (·.issuer)

/-- The non-issuer party of a `RippleState` of the issuance, with the sign of
    `Balance` from its side; `none` if the line is not one of the issuance. -/
def holderInfo (fields : Fields) (issuer currency : String) :
    Option HolderInfo :=
  if balanceCurrency fields ≠ some currency then none
  else
    match amountIssuer fields.lowLimit, amountIssuer fields.highLimit with
    | some low, some high =>
        if low = issuer then some ⟨high, .minus⟩
        else if high = issuer then some ⟨low, .plus⟩
        else none
    | _, _ => none

/-- The line's balance from the holder's side; an absent value is zero. -/
def holderBalance (fields : Fields) (sign : Sign) : ℚ :=
  let big := (fields.balance.bind (·.value)).getD 0
  match sign with
  | .plus => big
  | .minus => -big

/-- A signed decimal balance change of one account. -/
structure IouDelta where
  account : String
  delta : ℚ
  deriving DecidableEq

/-- The body of the loop of `iouDeltas` over the affected nodes. -/
def iouNodeDelta (currency issuer : String) (w : AffectedNode) :
    Option IouDelta :=
  match w.node with
  | none => none
  | some node =>
      if node.ledgerEntryType ≠ some "RippleState" then none
      else match node.fields with
        | none => none
        | some fields =>
            match holderInfo fields issuer currency with
            | none => none
            | some info =>
                let change : Option (ℚ × ℚ) :=
                  if w.createdNode.isSome then
                    some (0, holderBalance fields info.sign)
                  else if w.modifiedNode.isSome then
                    match node.previousFields with
                    | none => none
                    | some prevFields =>
                        -- no previous `Balance`: the balance is unchanged
                        if prevFields.balance.isNone then none
                        else some (holderBalance prevFields info.sign,
                          holderBalance fields info.sign)
                  else some (holderBalance fields info.sign, 0)
                match change with
                | none => none
                | some (prev, final) =>
                    if final - prev = 0 then none
                    else some ⟨info.holder, final - prev⟩

/-- The per-account IOU balance changes of a transaction. -/
def iouDeltas (m : Meta) (currency issuer : String) : List IouDelta :=
  m.nodes.filterMap (iouNodeDelta currency issuer)

/-! ## Holders touched by a transaction -/

/-- The two kinds of issuance. -/
inductive Kind
  | mpt
  | iou
  deriving DecidableEq

/-- What an issuance needs for delta derivation and holder detection. -/
structure TrackedIssuance where
  id : ℕ
  kind : Kind
  mptIssuanceId : Option String := none
  currency : Option String := none
  issuer : Option String := none
  deriving DecidableEq

/-- A holder of a tracked issuance found in a transaction's metadata. -/
structure DetectedHolder where
  issuanceId : ℕ
  holder : String
  deriving DecidableEq

/-- The holder of `iss` that an affected node belongs to. -/
def nodeHolder (iss : TrackedIssuance) (type : Option String)
    (fields : Fields) : Option String :=
  let holder : Option String :=
    if iss.kind = .mpt ∧ type = some "MPToken" ∧
        fields.mptokenIssuanceID = some (iss.mptIssuanceId.getD "") then
      fields.account
    else if iss.kind = .iou ∧ type = some "RippleState" then
      (holderInfo fields (iss.issuer.getD "") (iss.currency.getD "")).map
        (·.holder)
    else none
  holder.filter (fun h => decide (h ≠ ""))

/-- The holders of the listed issuances that one affected node names, in the
    order of the list. -/
def nodeHolders (issuances : List TrackedIssuance) (w : AffectedNode) :
    List DetectedHolder :=
  match w.node.bind (fun node => node.fields.map (fun f => (node, f))) with
  | none => []
  | some (node, fields) =>
      issuances.filterMap fun iss =>
        (nodeHolder iss node.ledgerEntryType fields).map (⟨iss.id, ·⟩)

/-- Every holder of a listed issuance whose token a transaction touches, each
    once, first sighting first. -/
def holdersInMeta (m : Meta) (issuances : List TrackedIssuance) :
    List DetectedHolder :=
  (m.nodes.flatMap (nodeHolders issuances)).foldl
    (fun out h => if h ∈ out then out else out ++ [h]) []

/-! ## Ledger objects reconstructed from metadata -/

/-- One archived transaction as the reconstruction reads it. -/
structure MetaEntry where
  ledgerIndex : ℕ
  transactionIndex : ℕ
  metadata : Meta
  deriving DecidableEq

/-- The newest state of a ledger object seen so far. -/
structure ObjectState where
  objectId : String
  entryType : String
  fields : Fields
  deleted : Bool
  ledgerIndex : ℕ
  transactionIndex : ℕ
  deriving DecidableEq

/-- What one affected node says about its object, at the entry's position. -/
def extractNode (e : MetaEntry) (w : AffectedNode) : Option ObjectState :=
  let live := w.createdNode <|> w.modifiedNode
  match live <|> w.deletedNode with
  | none => none
  | some node =>
      match node.ledgerEntryType, node.ledgerIndex with
      | some type, some id =>
          if type = "" ∨ id = "" then none
          else some
            { objectId := id, entryType := type
              fields := node.fields.getD {}, deleted := live.isNone
              ledgerIndex := e.ledgerIndex
              transactionIndex := e.transactionIndex }
      | _, _ => none

def extractNodes (e : MetaEntry) : List ObjectState :=
  e.metadata.nodes.filterMap (extractNode e)

/-- `b` is at a later position than `a`. -/
def isNewer (a b : ObjectState) : Prop :=
  a.ledgerIndex < b.ledgerIndex
    ∨ (b.ledgerIndex = a.ledgerIndex ∧ a.transactionIndex < b.transactionIndex)

instance (a b : ObjectState) : Decidable (isNewer a b) :=
  inferInstanceAs (Decidable (_ ∨ _))

/-- Objects by id, in order of first sighting. -/
abbrev Objects := Table ObjectState.objectId

/-- `byId.set` under the `isNewer` test. -/
def Objects.observe (byId : Objects) (o : ObjectState) : Objects :=
  byId.upsert
    (fun old new =>
      if isNewer old new then { new with objectId := old.objectId } else old)
    (by intro old new; by_cases h : isNewer old new
        · rw [if_pos h]
        · rw [if_neg h]) o

/-- The newest state of each matching object over the entries. -/
def latestObjects (entries : List MetaEntry)
    (predicate : String → Fields → Bool) : List ObjectState :=
  (((entries.flatMap extractNodes).filter
    (fun o => predicate o.entryType o.fields)).foldl
      Objects.observe Table.empty).rows

/-- A holder of an MPT issuance. -/
structure MptHolder where
  account : String
  mptAmount : String
  flags : ℕ
  mptokenIndex : String
  deriving DecidableEq

/-- The current holders of an MPT issuance, sorted by account. -/
def toMptHolders (entries : List MetaEntry) (mptIssuanceId : String) :
    List MptHolder :=
  ((latestObjects entries (fun type fields =>
      type = "MPToken" ∧ fields.mptokenIssuanceID = some mptIssuanceId)).filterMap
    fun o =>
      if o.deleted then none
      else match o.fields.account with
        | none => none
        | some account =>
            if account = "" then none
            else some
              { account, mptAmount := o.fields.mptAmount.getD "0"
                flags := o.fields.flags.getD 0, mptokenIndex := o.objectId }
  ).insertionSort (fun a b => a.account ≤ b.account)

/-- An account's balance, an entry of a balance map. -/
structure AccountBalance (V : Type) where
  account : String
  balance : V
  deriving DecidableEq

/-- A map from accounts to balances. -/
abbrev Balances (V : Type) := Table (AccountBalance.account (V := V))

variable {V : Type}

/-- `balances.set(account, balance)`. -/
def Balances.set (balances : Balances V) (b : AccountBalance V) : Balances V :=
  balances.upsert (fun old new => { new with account := old.account })
    (fun _ _ => rfl) b

/-- `balances.get(account) ?? 0`. -/
def Balances.get [Zero V] (balances : Balances V) (account : String) : V :=
  ((balances.find? account).map (·.balance)).getD 0

/-- The current IOU balance of each holder, from the live trust lines. -/
def toIouBalances (entries : List MetaEntry) (issuer currency : String) :
    Balances ℚ :=
  ((latestObjects entries (fun type fields =>
      type = "RippleState" ∧ (holderInfo fields issuer currency).isSome)).filterMap
    fun o =>
      if o.deleted then none
      else (holderInfo o.fields issuer currency).map fun info =>
        ⟨info.holder, holderBalance o.fields info.sign⟩
  ).foldl Balances.set Table.empty

theorem Balances.mem_set {t : Balances V} {x b : AccountBalance V}
    (h : b ∈ t.set x) : b ∈ t ∨ b = x := by
  rcases Table.mem_upsert.mp h with ⟨hb, -⟩ | ⟨old, -, hk, rfl⟩ | ⟨rfl, -⟩
  · exact Or.inl hb
  · right
    rw [hk]
  · exact Or.inr rfl

theorem Balances.mem_foldl_set {l : List (AccountBalance V)}
    {b : AccountBalance V} (h : b ∈ l.foldl Balances.set Table.empty) :
    b ∈ l := by
  induction l using List.reverseRecOn with
  | nil => exact absurd h (Table.not_mem_empty b)
  | append_singleton l x ih =>
      rw [List.foldl_append] at h
      rcases Balances.mem_set h with h | rfl
      · exact List.mem_append_left _ (ih h)
      · exact List.mem_append_right _ (List.mem_singleton_self b)

/-- What a balance map built by `set` answers for an account all of whose
    entries agree. -/
theorem Balances.get_foldl_set [Zero V] {l : List (AccountBalance V)}
    {account : String} {v : V}
    (hmem : ∀ b ∈ l, b.account = account → b.balance = v)
    (hnone : (∀ b ∈ l, b.account ≠ account) → v = 0) :
    (l.foldl Balances.set Table.empty).get account = v := by
  unfold Balances.get
  cases hf : (l.foldl Balances.set Table.empty : Balances V).find? account with
  | some b =>
      obtain ⟨hb, hk⟩ := Table.find?_eq_some.mp hf
      exact hmem b (Balances.mem_foldl_set hb) hk
  | none =>
      have hno := Table.find?_eq_none.mp hf
      refine (hnone ?_).symm
      intro b hb hk
      exact hno (Table.hasKey_foldl_upsert.mpr (Or.inr ⟨b, hb, hk⟩))

end RegistrarMetadata
