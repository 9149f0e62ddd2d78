import Registrar.Pages

/-! # Where paging ends

    `accountTxPages` asks for page after page.  The request leaves out a marker
    that is absent or null, and so does the checkpoint; but only an absent one ends
    the paging and makes a page the final one.  A history that upstream closes with
    a null marker is read again from its first page, for ever. -/

namespace RegistrarPaging

open PagedJob KeyedTable Statements RegistrarArchive RegistrarIngest RegistrarBackfill
open RegistrarResume (claim sweepRows getByAccount_checkpointJob getByAccount_completeJob)
open RegistrarPages (finishSweep_ok finishJob_ok jobRow)

/-! ## Paging -/

/-- A `marker`: absent (`undefined`), null, or a value, as JSON text. -/
inductive Marker
  | absent
  | null
  | value (json : String)
  deriving DecidableEq

/-- The marker unless it is absent or null. -/
def Marker.cursor : Marker → Option String
  | .value json => some json
  | _ => none

/-- A page as it is served and yielded. -/
structure ServedPage where
  entries : List BinaryTxEntry
  marker : Marker
  provenance : Provenance
  deriving DecidableEq

def ServedPage.cursor (page : ServedPage) : Option String := page.marker.cursor

structure AccountTxPageQuery where
  account : String
  fromLedger : Option ℕ := none
  toLedger : Option ℕ := none
  startMarker : Marker := .absent
  limit : Option ℕ := none

structure AccountTxRequest where
  account : String
  ledgerIndexMin : Option ℕ
  ledgerIndexMax : Option ℕ
  limit : Option ℕ
  marker : Option String
  deriving DecidableEq

/-- The request of a page; a bound of 0 means "from earliest". -/
def pageRequest (query : AccountTxPageQuery) (marker : Marker) : AccountTxRequest where
  account := query.account
  ledgerIndexMin := query.fromLedger.filter (fun ledger => decide (ledger > 0))
  ledgerIndexMax := query.toLedger.filter (fun ledger => decide (ledger > 0))
  limit := query.limit
  marker := marker.cursor

/-- What the upstream answers; `none` for an error. -/
abbrev Upstream := AccountTxRequest → Option ServedPage

/-- Where the generator is after some of its turns. -/
inductive Status
  | suspended
  | returned
  | threw
  deriving DecidableEq

/-- What the loop of `accountTxPages` yields in its next turns, from a marker. -/
def pagesFrom (upstream : Upstream) (query : AccountTxPageQuery) :
    ℕ → Marker → List ServedPage × Status
  | 0, _ => ([], .suspended)
  | turns + 1, marker =>
      match upstream (pageRequest query marker) with
      | none => ([], .threw)
      | some page =>
          if page.marker = .absent then ([page], .returned)
          else
            let (pages, status) := pagesFrom upstream query turns page.marker
            (page :: pages, status)

/-- The pages that the first turns of `accountTxPages` yield. -/
def accountTxPages (upstream : Upstream) (query : AccountTxPageQuery) (turns : ℕ) :
    List ServedPage × Status :=
  pagesFrom upstream query turns query.startMarker

theorem pagesFrom_last {upstream : Upstream} {query : AccountTxPageQuery}
    {marker : Marker} {page : ServedPage} (turns : ℕ)
    (hserved : upstream (pageRequest query marker) = some page)
    (habsent : page.marker = .absent) :
    pagesFrom upstream query (turns + 1) marker = ([page], .returned) := by
  unfold pagesFrom
  rw [hserved]
  exact if_pos habsent

theorem pagesFrom_more {upstream : Upstream} {query : AccountTxPageQuery}
    {marker : Marker} {page : ServedPage} (turns : ℕ)
    (hserved : upstream (pageRequest query marker) = some page)
    (hmarked : page.marker ≠ .absent) :
    pagesFrom upstream query (turns + 1) marker
      = (page :: (pagesFrom upstream query turns page.marker).1,
          (pagesFrom upstream query turns page.marker).2) := by
  rw [pagesFrom, hserved]
  exact if_neg hmarked

/-! ## The consumers -/

/-- `isFinal`, in both consumers. -/
def isFinal (page : ServedPage) : Bool := decide (page.marker = .absent)

/-- How the transaction of a page ends: the checkpoint, and for the final page the
    claim of coverage and the completion. -/
def endPage (kind : BackfillKind) (issuanceId : ℕ) (job : BackfillJobRow) (page : ServedPage)
    (added highWater : ℕ) (db : Archive) : Except DbError Archive :=
  match kind with
  | .issuer =>
      finishSweep (isFinal page) issuanceId job.address (job.fromLedger.getD 0) highWater job.id
        (checkpointJob job.id page.marker.cursor added db)
  | .account =>
      finishJob (isFinal page) job highWater
        (checkpointJob job.id page.marker.cursor added db)

/-- The marker that a later attempt starts from: `last_marker ?? undefined`. -/
def resumeMarker (job : BackfillJobRow) : Marker :=
  match job.lastMarker with
  | some json => .value json
  | none => .absent

/-- Coverage of the job's account up to a ledger is claimed. -/
def Claimed (address : String) (toLedger : ℕ) (db db' : Archive) : Prop :=
  ∃ rows, db'.coverage = db.coverage ++ rows
    ∧ ∃ row ∈ rows, row.address = address ∧ row.toLedger = toLedger

/-- Among the rows a sweep claims is the issuer's own. -/
theorem sweepRows_claimed {issuanceId fromLedger toLedger : ℕ} {issuer : String}
    {db db' : Archive} (d : Archive)
    (h : db'.coverage = db.coverage ++ sweepRows issuanceId issuer fromLedger toLedger d) :
    Claimed issuer toLedger db db' := by
  refine ⟨_, h, ⟨issuer, coverageFloor issuanceId fromLedger toLedger d, toLedger,
    .issuerSweep issuer fromLedger toLedger⟩, ?_, rfl, rfl⟩
  have hmem : ∀ members : List String, issuer ∈ members ++ [issuer] :=
    fun members => List.mem_append_right members (List.mem_singleton_self issuer)
  exact List.mem_map_of_mem (hmem _)

/-- What the end of a page leaves of its job and of the coverage. -/
theorem endPage_leaves {kind : BackfillKind} {issuanceId added highWater : ℕ}
    {job row : BackfillJobRow} {page : ServedPage} {db db' : Archive}
    (hrow : getByAccount issuanceId job.address db = some row) (hid : row.id = job.id)
    (h : endPage kind issuanceId job page added highWater db = .ok db') :
    (isFinal page = true →
        getByAccount issuanceId job.address db' = some { row with
          lastMarker := none, txCount := row.txCount + added, status := .completed }
        ∧ Claimed job.address highWater db db')
      ∧ (isFinal page = false →
        getByAccount issuanceId job.address db' = some { row with
          lastMarker := page.marker.cursor, txCount := row.txCount + added
          status := .running }
        ∧ db'.coverage = db.coverage) := by
  have hcheckpoint : getByAccount issuanceId job.address
      (checkpointJob job.id page.marker.cursor added db) = some { row with
        lastMarker := page.marker.cursor, txCount := row.txCount + added
        status := .running } := by
    rw [getByAccount_checkpointJob, hrow, Option.map_some, if_pos hid]
  have hcompleted : ∀ d : Archive, d.backfillJob
        = (checkpointJob job.id page.marker.cursor added db).backfillJob →
      getByAccount issuanceId job.address (completeJob job.id d) = some { row with
        lastMarker := none, txCount := row.txCount + added, status := .completed } := by
    intro d hd
    have hsame : getByAccount issuanceId job.address d
        = getByAccount issuanceId job.address
          (checkpointJob job.id page.marker.cursor added db) :=
      congrArg (fun t => Table.find? t (job.address, issuanceId)) hd
    rw [getByAccount_completeJob, hsame, hcheckpoint, Option.map_some]
    exact congrArg some (if_pos hid)
  refine ⟨fun hfinal => ?_, fun hfinal => ?_⟩
  · cases kind with
    | issuer =>
        have hdb := finishSweep_ok h
        rw [if_pos hfinal] at hdb
        rw [hdb]
        exact ⟨hcompleted _ rfl, sweepRows_claimed _ rfl⟩
    | account =>
        have hdb := finishJob_ok h
        rw [if_pos hfinal] at hdb
        rw [hdb]
        exact ⟨hcompleted _ rfl, [jobRow job highWater], rfl, jobRow job highWater,
          List.mem_singleton_self _, rfl, rfl⟩
  · cases kind with
    | issuer =>
        have hdb := finishSweep_ok h
        rw [if_neg (Bool.eq_false_iff.mp hfinal)] at hdb
        rw [hdb]
        exact ⟨hcheckpoint, rfl⟩
    | account =>
        have hdb := finishJob_ok h
        rw [if_neg (Bool.eq_false_iff.mp hfinal)] at hdb
        rw [hdb]
        exact ⟨hcheckpoint, rfl⟩

/-! ## The chain of pages -/

variable {upstream : Upstream} {query : AccountTxPageQuery} {C : Chain ServedPage.cursor}

/-- The upstream serves the chain: after a marker, the page that follows it. -/
def Serves (upstream : Upstream) (query : AccountTxPageQuery) (C : Chain ServedPage.cursor) :
    Prop :=
  ∀ marker, upstream (pageRequest query marker) = (C.remaining marker.cursor).head?

theorem cursor_some {page : ServedPage} {json : String} (h : page.cursor = some json) :
    page.marker = .value json := by
  have h : page.marker.cursor = some json := h
  cases hm : page.marker with
  | absent => rw [hm] at h; exact nomatch h
  | null => rw [hm] at h; exact nomatch h
  | value j =>
      rw [hm] at h
      exact congrArg Marker.value (Option.some.inj h)

/-- A page of the remaining ones is the last of the chain, or its marker is a value that
    leads to those after it. -/
theorem remaining_cases {marker : Marker} {before rest : List ServedPage} {page : ServedPage}
    (h : C.remaining marker.cursor = before ++ page :: rest) :
    (rest = [] ∧ page = C.last)
      ∨ (rest ≠ [] ∧ ∃ json, page.marker = .value json ∧ C.remaining (some json) = rest) := by
  obtain ⟨skipped, hpages⟩ := C.remaining_suffix marker.cursor
  rw [h, ← List.append_assoc] at hpages
  rcases C.split_cases hpages with hlast | ⟨hmore, json, hjson, hrest⟩
  · exact Or.inl hlast
  · exact Or.inr ⟨hmore, json, cursor_some hjson, hrest⟩

/-- Where the last page has no marker at all, the generator yields what remains and
    returns. -/
theorem pagesFrom_remaining (hserves : Serves upstream query C)
    (hlast : C.last.marker = .absent) {rest : List ServedPage} {marker : Marker}
    (hrest : C.remaining marker.cursor = rest) (hne : rest ≠ []) :
    pagesFrom upstream query rest.length marker = (rest, .returned) := by
  induction rest generalizing marker with
  | nil => exact absurd rfl hne
  | cons page rest ih =>
      have hserved : upstream (pageRequest query marker) = some page := by
        rw [hserves marker, hrest, List.head?_cons]
      have hsplit : C.remaining marker.cursor = [] ++ page :: rest := hrest
      rcases remaining_cases hsplit with
        ⟨rfl, rfl⟩ | ⟨hmore, json, hjson, hnext⟩
      · exact pagesFrom_last 0 hserved hlast
      · have hmarked : page.marker ≠ .absent := by
          rw [hjson]
          exact Marker.noConfusion
        have hnext : C.remaining page.marker.cursor = rest := by
          rw [hjson]
          exact hnext
        rw [List.length_cons, pagesFrom_more rest.length hserved hmarked, ih hnext hmore]

/-- A generator that is served no page without a marker never returns. -/
theorem pagesFrom_never_returns
    (hmarked : ∀ marker page, upstream (pageRequest query marker) = some page →
      page.marker ≠ .absent) (turns : ℕ) (marker : Marker) :
    (pagesFrom upstream query turns marker).2 ≠ .returned := by
  induction turns generalizing marker with
  | zero => exact Status.noConfusion
  | succ turns ih =>
      cases hserved : upstream (pageRequest query marker) with
      | none =>
          rw [pagesFrom, hserved]
          exact Status.noConfusion
      | some page =>
          rw [pagesFrom_more turns hserved (hmarked marker page hserved)]
          exact ih page.marker

/-! ## Ending with the history -/

/-- What a consumer has done once the transaction of a page has committed, where the pages
    `rest` follow: it has completed the job and claimed coverage, or it has done neither
    and a later attempt is given `rest`. -/
structure PageEnded (upstream : Upstream) (query : AccountTxPageQuery)
    (rest : List ServedPage) (issuanceId : ℕ) (address : String) (highWater : ℕ)
    (db db' : Archive) : Prop where
  final : rest = [] → ∃ row, getByAccount issuanceId address db' = some row
    ∧ row.status = .completed ∧ Claimed address highWater db db'
  resumed : rest ≠ [] → ∃ row, getByAccount issuanceId address db' = some row
    ∧ row.status ≠ .completed ∧ db'.coverage = db.coverage
    ∧ ∃ turns, accountTxPages upstream { query with startMarker := resumeMarker row } turns
        = (rest, .returned)

/-- The paging ends with the history: it yields what remains and returns, and each of its
    pages ends as its place among them says. -/
structure EndsWithHistory (upstream : Upstream) (query : AccountTxPageQuery)
    (C : Chain ServedPage.cursor) : Prop where
  yields : ∃ turns, accountTxPages upstream query turns
    = (C.remaining query.startMarker.cursor, .returned)
  ends : ∀ (before : List ServedPage) (page : ServedPage) (rest : List ServedPage),
    C.remaining query.startMarker.cursor = before ++ page :: rest →
    ∀ (kind : BackfillKind) (issuanceId added highWater : ℕ) (job row : BackfillJobRow)
      (db db' : Archive), getByAccount issuanceId job.address db = some row →
      row.id = job.id → endPage kind issuanceId job page added highWater db = .ok db' →
      PageEnded upstream query rest issuanceId job.address highWater db db'

theorem endPage_ended (hserves : Serves upstream query C) (hlast : C.last.marker = .absent)
    {before rest : List ServedPage} {page : ServedPage} {marker : Marker}
    (hpages : C.remaining marker.cursor = before ++ page :: rest)
    {kind : BackfillKind} {issuanceId added highWater : ℕ} {job row : BackfillJobRow}
    {db db' : Archive} (hrow : getByAccount issuanceId job.address db = some row)
    (hid : row.id = job.id)
    (h : endPage kind issuanceId job page added highWater db = .ok db') :
    PageEnded upstream query rest issuanceId job.address highWater db db' := by
  obtain ⟨hfinal, hmore⟩ := endPage_leaves hrow hid h
  rcases remaining_cases hpages with ⟨hnil, hpage⟩ | ⟨hne, json, hjson, hrest⟩
  · have habsent : isFinal page = true := by
      rw [hpage]
      exact decide_eq_true hlast
    obtain ⟨hcompleted, hclaimed⟩ := hfinal habsent
    exact ⟨fun _ => ⟨_, hcompleted, rfl, hclaimed⟩, fun hne => absurd hnil hne⟩
  · have hvalue : isFinal page = false := by
      refine decide_eq_false ?_
      rw [hjson]
      exact Marker.noConfusion
    obtain ⟨hrunning, hcoverage⟩ := hmore hvalue
    refine ⟨fun hnil => absurd hnil hne, fun _ => ⟨_, hrunning, BackfillStatus.noConfusion,
      hcoverage, rest.length, ?_⟩⟩
    -- the stored cursor is the page's marker, and leads to the pages after it
    have hserves : Serves upstream { query with startMarker := .value json } C := hserves
    have hnext : C.remaining (Marker.value json).cursor = rest := hrest
    rw [hjson]
    exact pagesFrom_remaining hserves hlast hnext hne

/-- Served from a chain that null closes, the generator never returns. -/
theorem null_never_returns (hserves : Serves upstream query C)
    (hlast : C.last.marker ≠ .absent) (turns : ℕ) (marker : Marker) :
    (pagesFrom upstream query turns marker).2 ≠ .returned := by
  refine pagesFrom_never_returns ?_ turns marker
  intro marker page hserved
  rw [hserves marker] at hserved
  obtain ⟨rest, hrest⟩ := List.head?_eq_some_iff.mp hserved
  have hsplit : C.remaining marker.cursor = [] ++ page :: rest := hrest
  rcases remaining_cases hsplit with ⟨-, rfl⟩ | ⟨-, json, hjson, -⟩
  · exact hlast
  · rw [hjson]
    exact Marker.noConfusion

/-- **THE END OF HISTORY ENDS THE PAGING** exactly where the last page has no marker at
    all, rather than a null one. -/
theorem paging_ends_with_history_iff (hserves : Serves upstream query C)
    (hstart : C.remaining query.startMarker.cursor ≠ []) :
    EndsWithHistory upstream query C ↔ C.last.marker = .absent := by
  constructor
  · intro h
    by_contra hlast
    obtain ⟨turns, hturns⟩ := h.yields
    have hstatus := congrArg Prod.snd hturns
    exact null_never_returns hserves hlast turns query.startMarker hstatus
  · intro hlast
    refine ⟨⟨_, pagesFrom_remaining hserves hlast rfl hstart⟩, ?_⟩
    intro before page rest hpages kind issuanceId added highWater job row db db' hrow hid h
    exact endPage_ended hserves hlast hpages hrow hid h

/-! ## Two pages -/

def firstPage : ServedPage := ⟨[⟨"tx", "mint", 200⟩], .value "200:0", ⟨"clio", "now"⟩⟩

theorem firstPage_marked : ∀ p ∈ [firstPage], p.cursor.isSome := by decide

theorem firstPage_distinct : ([firstPage].map ServedPage.cursor).Nodup := by decide

/-- The first page and one that closes the history. -/
def closedBy (last : ServedPage) (hlast : last.cursor = none) : Chain ServedPage.cursor where
  init := [firstPage]
  last := last
  marked := firstPage_marked
  unmarked := hlast
  distinct := firstPage_distinct

/-- The upstream of a chain. -/
def served (C : Chain ServedPage.cursor) : Upstream :=
  fun request => (C.remaining request.marker).head?

theorem served_serves (C : Chain ServedPage.cursor) (query : AccountTxPageQuery) :
    Serves (served C) query C :=
  fun _ => rfl

def absentPage : ServedPage := ⟨[⟨"tx", "payment", 210⟩], .absent, ⟨"clio", "now"⟩⟩

theorem paging_ends_with_history_absent :
    EndsWithHistory (served (closedBy absentPage rfl)) ⟨"rIssuer", some 100, none, .absent, none⟩
      (closedBy absentPage rfl) :=
  (paging_ends_with_history_iff (served_serves _ _) (by decide)).mpr rfl

def nullPage : ServedPage := ⟨[⟨"tx", "payment", 210⟩], .null, ⟨"clio", "now"⟩⟩

/-- Closed with null, the history is read again from its first page: its last page is not
    taken for the final one, and the generator never returns. -/
theorem null_reads_again :
    Serves (served (closedBy nullPage rfl)) ⟨"rIssuer", some 100, none, .absent, none⟩
        (closedBy nullPage rfl)
      ∧ accountTxPages (served (closedBy nullPage rfl))
          ⟨"rIssuer", some 100, none, .absent, none⟩ 3
        = ([firstPage, nullPage, firstPage], .suspended)
      ∧ isFinal nullPage = false
      ∧ ¬ EndsWithHistory (served (closedBy nullPage rfl))
          ⟨"rIssuer", some 100, none, .absent, none⟩ (closedBy nullPage rfl) := by
  refine ⟨served_serves _ _, by decide, by decide, ?_⟩
  rintro ⟨⟨turns, hturns⟩, -⟩
  exact null_never_returns (served_serves _ _) (by decide) turns .absent
    (congrArg Prod.snd hturns)

end RegistrarPaging
