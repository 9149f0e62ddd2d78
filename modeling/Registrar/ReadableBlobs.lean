import Registrar.StateReads
import Registrar.Rederivation

/-! # Reading around undecodable blobs

    The readers of stored metadata decode every blob they select, and `decode`
    throws where it meets one it cannot read.  What they should answer is what
    they answer over the archive without those blobs: the one in which their
    transactions are linked to nobody.  They do exactly when they select none
    of them. -/

namespace RegistrarReadable

open KeyedTable Statements RegistrarMetadata RegistrarArchive RegistrarIngest RegistrarReads
open RegistrarBackfill RegistrarReconciler RegistrarStateReads RegistrarRederivation

/-! ## The archive without its undecodable blobs -/

/-- `decode` reads the blob of a stored transaction. -/
def Decodes (X : Xrpl) (t : TransactionRow) : Prop := (X.decodeMeta t.metaBlob).isSome

instance (X : Xrpl) (t : TransactionRow) : Decidable (Decodes X t) :=
  inferInstanceAs (Decidable (_ = true))

/-- Replace the links of accounts to transactions. -/
def relink (links : Table AccountTransactionRow.key) (db : Archive) : Archive :=
  { db with accountTransactions := links }

/-- The links to transactions that decode. -/
def readableLinks (X : Xrpl) (db : Archive) : Table AccountTransactionRow.key :=
  db.accountTransactions.deleteWhere
    (fun l => ∃ t ∈ db.transactions, t.hash = l.hash ∧ ¬ Decodes X t)

/-- The archive as if its undecodable blobs were absent. -/
def readable (X : Xrpl) (db : Archive) : Archive := relink (readableLinks X db) db

section Selections

variable {X : Xrpl} {db : Archive}

/-- A transaction keeps its links if it decodes, and loses them else. -/
theorem linked_readable {t : TransactionRow} (ht : t ∈ db.transactions)
    {Q : AccountTransactionRow → Prop} :
    (∃ l ∈ (readable X db).accountTransactions, l.hash = t.hash ∧ Q l)
      ↔ (∃ l ∈ db.accountTransactions, l.hash = t.hash ∧ Q l) ∧ Decodes X t := by
  constructor
  · rintro ⟨l, hl, hhash, hq⟩
    obtain ⟨hl, hkept⟩ := Table.mem_deleteWhere.mp hl
    refine ⟨⟨l, hl, hhash, hq⟩, ?_⟩
    by_contra hno
    exact hkept ⟨t, ht, hhash.symm, hno⟩
  · rintro ⟨⟨l, hl, hhash, hq⟩, hdecodes⟩
    refine ⟨l, Table.mem_deleteWhere.mpr ⟨hl, ?_⟩, hhash, hq⟩
    rintro ⟨t', ht', hhash', hno⟩
    rw [Table.eq_of_key_eq _ ht' ht (hhash'.trans hhash)] at hno
    exact hno hdecodes

/-- A selection by links selects those that decode. -/
theorem select_readable {Q : AccountTransactionRow → Prop} [DecidablePred Q] :
    ((readable X db).transactions.rows.filter fun t => decide
        (∃ l ∈ (readable X db).accountTransactions, l.hash = t.hash ∧ Q l))
      = (db.transactions.rows.filter fun t => decide
          (∃ l ∈ db.accountTransactions, l.hash = t.hash ∧ Q l)).filter
        fun t => decide (Decodes X t) := by
  rw [List.filter_filter]
  refine List.filter_congr fun t ht => ?_
  have ht : t ∈ db.transactions := ht
  rw [← Bool.decide_and, decide_eq_decide, linked_readable ht, and_comm]

theorem accountTransactions_readable (address : String) :
    accountTransactions (readable X db) address
      = (accountTransactions db address).filter fun t => decide (Decodes X t) :=
  select_readable

theorem issuanceTransactions_readable (issuanceId : ℕ) :
    issuanceTransactions (readable X db) issuanceId
      = (issuanceTransactions db issuanceId).filter fun t => decide (Decodes X t) :=
  select_readable

theorem inScopeMeta_readable (issuanceId : ℕ) :
    inScopeMeta (readable X db) issuanceId
      = (inScopeMeta db issuanceId).filter fun t => decide (Decodes X t) :=
  select_readable

theorem rowsUpTo_filter (rows : List TransactionRow) (upTo : ℤ) :
    rowsUpTo (rows.filter fun t => decide (Decodes X t)) upTo
      = (rowsUpTo rows upTo).filter fun t => decide (Decodes X t) := by
  unfold rowsUpTo
  rw [List.filter_filter, List.filter_filter]
  exact List.filter_congr fun t _ => Bool.and_comm _ _

/-! ## Decoding a selection -/

theorem decodeMetaEntries_some {rows : List TransactionRow} (h : ∀ t ∈ rows, Decodes X t) :
    ∃ entries, decodeMetaEntries X rows = some entries := by
  obtain ⟨entries, hentries, -⟩ := mapM_some (f := decodeMetaEntry X) (fun t ht => by
    obtain ⟨m, hm⟩ := Option.isSome_iff_exists.mp (h t ht)
    exact ⟨_, by unfold decodeMetaEntry; rw [hm]; rfl⟩)
  exact ⟨entries, hentries⟩

theorem decodeMetaEntries_none {rows : List TransactionRow} {t : TransactionRow}
    (ht : t ∈ rows) (h : ¬ Decodes X t) : decodeMetaEntries X rows = none := by
  by_contra hsome
  obtain ⟨entries, hentries⟩ := Option.ne_none_iff_exists'.mp hsome
  obtain ⟨e, -, he⟩ := exists_of_mapM_some hentries ht
  obtain ⟨m, hm, -⟩ := Option.map_eq_some_iff.mp he
  exact h (Option.isSome_iff_exists.mpr ⟨m, hm⟩)

/-- A selection without an undecodable blob is what remains of it; with one it
    throws, and what remains of it does not. -/
theorem decode_selection (order : RowOrder) (rows : List TransactionRow) :
    ((∀ t ∈ rows, Decodes X t)
        ∧ (rows.filter fun t => decide (Decodes X t)) = rows)
      ∨ ((¬ ∀ t ∈ rows, Decodes X t) ∧ decodeMetaEntries X (order.arrange rows) = none
        ∧ ∃ entries, decodeMetaEntries X
            (order.arrange (rows.filter fun t => decide (Decodes X t))) = some entries) := by
  by_cases h : ∀ t ∈ rows, Decodes X t
  · exact Or.inl ⟨h, List.filter_eq_self.mpr fun t ht => decide_eq_true (h t ht)⟩
  · refine Or.inr ⟨h, ?_, ?_⟩
    · obtain ⟨t, hno⟩ := not_forall.mp h
      obtain ⟨ht, hno⟩ := Classical.not_imp.mp hno
      exact decodeMetaEntries_none ((order.perm rows).mem_iff.mpr ht) hno
    · refine decodeMetaEntries_some fun t ht => ?_
      have hin := (order.perm _).mem_iff.mp ht
      exact of_decide_eq_true (List.mem_filter.mp hin).2

/-! ## `account_info` and `account_lines` -/

/-- The request gets to the transactions of the account, up to a ledger. -/
structure Asks (db : Archive) (req : StateRequest) (account : String) (upTo : ℤ) : Prop where
  named : req.account.filter (fun s => decide (s ≠ "")) = some account
  scope : db.accounts.HasKey account
  limit : ledgerLimit req = some upTo

/-- Every blob that a request of an account selects decodes. -/
def AccountReads (X : Xrpl) (db : Archive) (req : StateRequest) : Prop :=
  ∀ account upTo, Asks db req account upTo →
    ∀ t ∈ rowsUpTo (accountTransactions db account) upTo, Decodes X t

theorem accountEntries_asks (order : RowOrder) {req : StateRequest} {account : String}
    {upTo : ℤ} (h : Asks db req account upTo) :
    accountEntries X order db req
      = (decodeMetaEntries X (accountMeta order db account upTo)).map
        fun entries => .ok (account, entries) := by
  unfold accountEntries
  simp only [h.named, h.limit, Option.bind_some]
  exact if_neg (not_not.mpr h.scope)

/-- A request that is refused does not look at the links. -/
theorem accountEntries_refused (order : RowOrder) {req : StateRequest}
    (h : ∀ account upTo, ¬ Asks db req account upTo) :
    accountEntries X order db req = accountEntries X order (readable X db) req := by
  unfold accountEntries
  cases hnamed : req.account.filter (fun s => decide (s ≠ "")) with
  | none => rfl
  | some account =>
      by_cases hscope : db.accounts.HasKey account
      · cases hlimit : ledgerLimit req with
        | none => rfl
        | some upTo => exact absurd ⟨hnamed, hscope, hlimit⟩ (h account upTo)
      · have hscope' : ¬ (readable X db).accounts.HasKey account := hscope
        simp only [if_pos hscope, if_pos hscope']

/-- Either nothing undecodable is selected, and the entries are those of the
    archive without the undecodable blobs; or the request throws, and does not
    over that one. -/
theorem accountEntries_cases (order : RowOrder) (db : Archive) (req : StateRequest) :
    (AccountReads X db req
        ∧ accountEntries X order db req = accountEntries X order (readable X db) req)
      ∨ (¬ AccountReads X db req ∧ accountEntries X order db req = none
        ∧ ∃ found, accountEntries X order (readable X db) req = some found) := by
  by_cases hasks : ∃ account upTo, Asks db req account upTo
  · obtain ⟨account, upTo, hask⟩ := hasks
    have hask' : Asks (readable X db) req account upTo := ⟨hask.named, hask.scope, hask.limit⟩
    have hreads : AccountReads X db req
        ↔ ∀ t ∈ rowsUpTo (accountTransactions db account) upTo, Decodes X t := by
      constructor
      · exact fun h => h account upTo hask
      · intro h account' upTo' hask''
        cases hask.named.symm.trans hask''.named
        cases hask.limit.symm.trans hask''.limit
        exact h
    rw [hreads, accountEntries_asks order hask, accountEntries_asks order hask']
    unfold accountMeta
    rw [accountTransactions_readable, rowsUpTo_filter]
    rcases decode_selection (X := X) order (rowsUpTo (accountTransactions db account) upTo) with
      ⟨hall, hsame⟩ | ⟨hnot, hthrows, entries, hentries⟩
    · exact Or.inl ⟨hall, by rw [hsame]⟩
    · rw [hthrows, hentries]
      exact Or.inr ⟨hnot, rfl, _, rfl⟩
  · have hnone : ∀ account upTo, ¬ Asks db req account upTo :=
      fun account upTo h => hasks ⟨account, upTo, h⟩
    exact Or.inl ⟨fun account upTo h => absurd h (hnone account upTo),
      accountEntries_refused order hnone⟩

/-- **`account_info`** answers as without the undecodable blobs exactly when it
    selects none. -/
theorem handleAccountInfo_iff (order : RowOrder) (db : Archive) (req : StateRequest) :
    handleAccountInfo X order db req = handleAccountInfo X order (readable X db) req
      ↔ AccountReads X db req := by
  unfold handleAccountInfo
  rcases accountEntries_cases (X := X) order db req with
    ⟨hreads, hsame⟩ | ⟨hnot, hthrows, found, hfound⟩
  · rw [hsame]
    exact ⟨fun _ => hreads, fun _ => rfl⟩
  · rw [hthrows, hfound]
    refine ⟨fun h => ?_, fun h => absurd h hnot⟩
    cases h

/-- **`account_lines`** likewise. -/
theorem handleAccountLines_iff (order : RowOrder) (db : Archive) (req : StateRequest) :
    handleAccountLines X order db req = handleAccountLines X order (readable X db) req
      ↔ AccountReads X db req := by
  unfold handleAccountLines
  rcases accountEntries_cases (X := X) order db req with
    ⟨hreads, hsame⟩ | ⟨hnot, hthrows, found, hfound⟩
  · rw [hsame]
    exact ⟨fun _ => hreads, fun _ => rfl⟩
  · rw [hthrows, hfound]
    refine ⟨fun h => ?_, fun h => absurd h hnot⟩
    cases h

/-! ## `mpt_holders` -/

/-- The request gets to the transactions of the issuance, up to a ledger. -/
structure AsksHolders (db : Archive) (req : StateRequest) (issuanceId : ℕ) (upTo : ℤ) :
    Prop where
  named : ∃ mptId, req.mptIssuanceId.filter (fun s => decide (s ≠ "")) = some mptId
    ∧ (db.issuances.rows.find? (fun i => i.mptIssuanceId = some mptId)).map (·.id)
      = some issuanceId
  limit : ledgerLimit req = some upTo

/-- Every blob that a request of an issuance's holders selects decodes. -/
def HoldersReads (X : Xrpl) (db : Archive) (req : StateRequest) : Prop :=
  ∀ issuanceId upTo, AsksHolders db req issuanceId upTo →
    ∀ t ∈ rowsUpTo (issuanceTransactions db issuanceId) upTo, Decodes X t

/-- **`mpt_holders`** likewise. -/
theorem handleMptHolders_iff (order : RowOrder) (db : Archive) (req : StateRequest) :
    handleMptHolders X order db req = handleMptHolders X order (readable X db) req
      ↔ HoldersReads X db req := by
  unfold handleMptHolders HoldersReads
  cases hnamed : req.mptIssuanceId.filter (fun s => decide (s ≠ "")) with
  | none =>
      refine ⟨fun _ issuanceId upTo h => ?_, fun _ => rfl⟩
      obtain ⟨mptId, hmpt, -⟩ := h.named
      rw [hnamed] at hmpt
      cases hmpt
  | some mptId =>
      have hsame : (readable X db).issuances = db.issuances := rfl
      cases hfound : db.issuances.rows.find? (fun i => i.mptIssuanceId = some mptId) with
      | none =>
          refine ⟨fun _ issuanceId upTo h => ?_, fun _ => ?_⟩
          · obtain ⟨mptId', hmpt, hid⟩ := h.named
            cases hnamed.symm.trans hmpt
            rw [hfound] at hid
            cases hid
          · simp only [hsame, hfound]
      | some issuance =>
          cases hlimit : ledgerLimit req with
          | none =>
              refine ⟨fun _ issuanceId upTo h => ?_, fun _ => ?_⟩
              · have hnone := hlimit.symm.trans h.limit
                cases hnone
              · simp only [hsame, hfound]
                rfl
          | some upTo =>
              have hreads : (∀ issuanceId upTo, AsksHolders db req issuanceId upTo →
                    ∀ t ∈ rowsUpTo (issuanceTransactions db issuanceId) upTo, Decodes X t)
                  ↔ ∀ t ∈ rowsUpTo (issuanceTransactions db issuance.id) upTo,
                    Decodes X t := by
                constructor
                · exact fun h => h _ _ ⟨⟨mptId, hnamed, by rw [hfound]; rfl⟩, hlimit⟩
                · intro h issuanceId upTo' hask
                  obtain ⟨mptId', hmpt, hid⟩ := hask.named
                  cases hnamed.symm.trans hmpt
                  rw [hfound] at hid
                  cases hid
                  cases hlimit.symm.trans hask.limit
                  exact h
              simp only [hsame, hfound, Option.bind_some]
              rw [hreads, issuanceTransactions_readable, rowsUpTo_filter]
              rcases decode_selection (X := X) order
                  (rowsUpTo (issuanceTransactions db issuance.id) upTo) with
                ⟨hall, hrows⟩ | ⟨hnot, hthrows, entries, hentries⟩
              · rw [hrows]
                exact ⟨fun _ => hall, fun _ => rfl⟩
              · rw [hthrows, hentries]
                refine ⟨fun h => ?_, fun h => absurd h hnot⟩
                cases h

/-! ## The reconciler -/

theorem record_readable {V : Type} (issuanceId : ℕ) (discrepancies : List (Discrepancy V)) :
    (record (readable X db) issuanceId discrepancies).map Prod.snd
      = (record db issuanceId discrepancies).map Prod.snd := by
  unfold record
  by_cases hissuance : db.issuances.HasKey issuanceId
  · have hissuance' : (readable X db).issuances.HasKey issuanceId := hissuance
    rw [if_neg (not_not.mpr hissuance), if_neg (not_not.mpr hissuance')]
    rfl
  · have hissuance' : ¬ (readable X db).issuances.HasKey issuanceId := hissuance
    rw [if_pos hissuance, if_pos hissuance']

/-- **THE RECONCILER** of an IOU issuance reports as without the undecodable
    blobs exactly when none is linked to a member. -/
theorem runIou_iff (issuanceId : ℕ) (currency issuer : String)
    (hrest : (runIou X (readable X db) issuanceId currency issuer).isSome) :
    (runIou X db issuanceId currency issuer).map Prod.snd
        = (runIou X (readable X db) issuanceId currency issuer).map Prod.snd
      ↔ ∀ t ∈ issuanceTransactions db issuanceId, Decodes X t := by
  rcases decode_selection (X := X) storedOrder (issuanceTransactions db issuanceId) with
    ⟨hall, hrows⟩ | ⟨hnot, hthrows, -⟩
  · refine ⟨fun _ => hall, fun _ => ?_⟩
    unfold runIou
    rw [issuanceTransactions_readable, hrows, Option.map_bind, Option.map_bind]
    exact congrArg _ (funext fun entries => (record_readable issuanceId _).symm)
  · have hnone : runIou X db issuanceId currency issuer = none := by
      unfold runIou
      rw [show decodeMetaEntries X (issuanceTransactions db issuanceId) = none from hthrows]
      rfl
    refine ⟨fun h => ?_, fun h => absurd h hnot⟩
    obtain ⟨report, hreport⟩ := Option.isSome_iff_exists.mp hrest
    rw [hnone, hreport] at h
    cases h

/-- So does that of an MPT issuance. -/
theorem runMpt_iff (issuanceId : ℕ) (mptIssuanceId : String)
    (hrest : (runMpt X (readable X db) issuanceId mptIssuanceId).isSome) :
    (runMpt X db issuanceId mptIssuanceId).map Prod.snd
        = (runMpt X (readable X db) issuanceId mptIssuanceId).map Prod.snd
      ↔ ∀ t ∈ issuanceTransactions db issuanceId, Decodes X t := by
  rcases decode_selection (X := X) storedOrder (issuanceTransactions db issuanceId) with
    ⟨hall, hrows⟩ | ⟨hnot, hthrows, -⟩
  · refine ⟨fun _ => hall, fun _ => ?_⟩
    have hderived : balanceByAccount (readable X db) issuanceId
        = balanceByAccount db issuanceId := rfl
    unfold runMpt
    rw [issuanceTransactions_readable, hrows, hderived]
    cases balanceByAccount db issuanceId with
    | none => rfl
    | some derived =>
        cases decodeMetaEntries X (issuanceTransactions db issuanceId) with
        | none => rfl
        | some entries =>
            simp only [Option.bind_some]
            cases mptBalances (toMptHolders entries mptIssuanceId) with
            | none => rfl
            | some reconstructed => exact (record_readable issuanceId _).symm
  · have hnone : runMpt X db issuanceId mptIssuanceId = none := by
      unfold runMpt
      rw [show decodeMetaEntries X (issuanceTransactions db issuanceId) = none from hthrows]
      cases balanceByAccount db issuanceId with
      | none => rfl
      | some derived => rfl
    refine ⟨fun h => ?_, fun h => absurd h hnot⟩
    obtain ⟨report, hreport⟩ := Option.isSome_iff_exists.mp hrest
    rw [hnone, hreport] at h
    cases h

/-! ## Re-derivation -/

/-- The statement neither reads nor writes the links. -/
def Unlinked (f : Archive → Except DbError Archive) : Prop :=
  ∀ links db, f (relink links db) = (f db).map (relink links)

theorem Unlinked.comp {f g : Archive → Except DbError Archive} (hf : Unlinked f)
    (hg : Unlinked g) : Unlinked (fun db => f db >>= g) := by
  intro links db
  show (f (relink links db) >>= g) = (f db >>= g).map (relink links)
  rw [hf links db]
  cases f db with
  | error e => rfl
  | ok d => exact hg links d

theorem Unlinked.foldlM {α : Type} {f : α → Archive → Except DbError Archive}
    (hf : ∀ a, Unlinked (f a)) (l : List α) :
    Unlinked (fun db => l.foldlM (fun db a => f a db) db) := by
  induction l with
  | nil => exact fun _ _ => rfl
  | cons a l ih => exact (hf a).comp ih

theorem unlinked_upsertDelta (row : BalanceDeltaRow) : Unlinked (upsertDelta row) := by
  intro links db
  unfold upsertDelta
  show (if ¬ db.transactions.HasKey row.hash then _
    else if ¬ db.accounts.HasKey row.address then _
    else if ¬ db.issuances.HasKey row.issuanceId then _ else _) = _
  by_cases htx : db.transactions.HasKey row.hash
  · by_cases haccount : db.accounts.HasKey row.address
    · by_cases hissuance : db.issuances.HasKey row.issuanceId
      · simp only [htx, haccount, hissuance, not_true_eq_false, if_false]
        rfl
      · simp only [htx, haccount, hissuance, not_true_eq_false, not_false_eq_true, if_false,
          if_true]
        rfl
    · simp only [htx, haccount, not_true_eq_false, not_false_eq_true, if_false, if_true]
      rfl
  · simp only [htx, not_false_eq_true, if_true]
    rfl

theorem unlinked_upsertDeltas (issuanceId : ℕ) (rows : List DeltaRow) :
    Unlinked (upsertDeltas issuanceId rows) := by
  intro links db
  unfold upsertDeltas
  by_cases honce : (rows.map (fun r => (r.hash, r.address))).Nodup
  · rw [if_neg (not_not.mpr honce), if_neg (not_not.mpr honce)]
    exact Unlinked.foldlM (fun r => unlinked_upsertDelta _) rows links db
  · rw [if_pos honce, if_pos honce]
    rfl

theorem unlinked_insertDeltasMany (issuanceId : ℕ) (rows : List DeltaRow) :
    Unlinked (insertDeltasMany issuanceId rows) := by
  unfold insertDeltasMany
  by_cases hempty : rows.isEmpty
  · simp only [hempty]
    exact fun _ _ => rfl
  · simp only [hempty]
    refine Unlinked.comp (Unlinked.foldlM (fun chunk => ?_) _)
      (Unlinked.foldlM (fun chunk => unlinked_upsertDeltas issuanceId chunk) _)
    intro links db
    refine congrArg Except.ok ?_
    induction chunk generalizing db with
    | nil => rfl
    | cons a chunk ih => exact ih (insertAccount ⟨a, none⟩ db)

theorem deltaRows_none {deltas : Meta → List (String × ℚ)} {txs : List TransactionRow}
    (h : ¬ ∀ t ∈ txs, Decodes X t) : deltaRows X deltas txs = none := by
  by_contra hsome
  obtain ⟨rows, hrows⟩ := Option.ne_none_iff_exists'.mp hsome
  exact h fun t ht => Option.isSome_iff_ne_none.mpr (decodes_of_deltaRows hrows ht)

/-- **RE-DERIVATION** derives as without the undecodable blobs exactly when none is
    linked to a member. -/
theorem rederive_iff (iss : TrackedIssuance)
    (hrest : (rederive X iss (readable X db)).isSome) :
    (rederive X iss db).map (·.balanceDeltas)
        = (rederive X iss (readable X db)).map (·.balanceDeltas)
      ↔ ∀ t ∈ inScopeMeta db iss.id, Decodes X t := by
  rw [rederive_eq] at hrest ⊢
  rw [rederive_eq]
  constructor
  · intro h
    by_contra hnot
    obtain ⟨d, hd⟩ := Option.isSome_iff_exists.mp hrest
    rw [hd] at h
    unfold deriveDeltas at h
    rw [deltaRows_none hnot] at h
    cases h
  · intro hall
    have hrows : (inScopeMeta db iss.id).filter (fun t => decide (Decodes X t))
        = inScopeMeta db iss.id :=
      List.filter_eq_self.mpr fun t ht => decide_eq_true (hall t ht)
    unfold deriveDeltas
    rw [inScopeMeta_readable, hrows, Option.map_bind, Option.map_bind]
    refine congrArg _ (funext fun rows => ?_)
    show ((insertDeltasMany iss.id rows db).toOption).map _
      = ((insertDeltasMany iss.id rows (relink (readableLinks X db) db)).toOption).map _
    rw [unlinked_insertDeltasMany]
    cases insertDeltasMany iss.id rows db with
    | error e => rfl
    | ok d => rfl

end Selections

end RegistrarReadable
