import Registrar.AdminLock
import Registrar.StateReads

/-! # Markers of `account_tx`

    A marker is the text `ledger:hash` of the last row of a page.  The request
    that brings it back has its ledger read by `Number`, which takes more than
    decimal digits; a marker that names no row is taken for none.

    `parseMarker_printMarker` reads a printed marker back. -/

namespace RegistrarMarkers

open RegistrarStateReads
open RegistrarAdmin (trim trim_eq isSpace isSpace_printable)

/-! ## `Number` of a string -/

/-- Digits with an optional sign. -/
def signedDigits (cs : List Char) : Option ℤ :=
  match cs with
  | '-' :: ds => (digits ds).map fun n => -n
  | '+' :: ds => digits ds
  | ds => digits ds
where
  digits (ds : List Char) : Option ℤ :=
    if ds ≠ [] ∧ ds.all Char.isDigit then some (Nat.ofDigitChars 10 ds 0) else none

/-- The exponent that follows the digits, zero where nothing follows. -/
def exponentPart (cs : List Char) : Option ℤ :=
  match cs with
  | [] => some 0
  | c :: ds => if c = 'e' ∨ c = 'E' then signedDigits ds else none

/-- A decimal literal without a sign: digits, a fraction and an exponent. -/
def decimalLiteral (cs : List Char) : Option ℚ :=
  let whole := cs.takeWhile Char.isDigit
  let rest := cs.dropWhile Char.isDigit
  let fraction := match rest with
    | '.' :: ds => ds.takeWhile Char.isDigit
    | _ => []
  let tail := match rest with
    | '.' :: ds => ds.dropWhile Char.isDigit
    | ds => ds
  if whole = [] ∧ fraction = [] then none
  else (exponentPart tail).map fun e =>
    (Nat.ofDigitChars 10 (whole ++ fraction) 0 : ℚ) * (10 : ℚ) ^ (e - (fraction.length : ℤ))

/-- The base a literal such as `0x1f` is written in. -/
def radixOf (c : Char) : Option ℕ :=
  if c = 'x' ∨ c = 'X' then some 16
  else if c = 'o' ∨ c = 'O' then some 8
  else if c = 'b' ∨ c = 'B' then some 2
  else none

/-- The number the digits of a base spell. -/
def radixLiteral (base : ℕ) (ds : List Char) : Option ℕ :=
  if ds = [] then none
  else ds.foldl (fun n d => n.bind fun n =>
    ((RegistrarMetadata.hexDigit d).filter (fun k => decide (k < base))).map
      fun k => base * n + k) (some 0)

/-- A literal without a sign. -/
def unsignedLiteral (cs : List Char) : Option Number :=
  if cs = "Infinity".toList then some .infinity
  else (decimalLiteral cs).map .finite

def negate : Number → Number
  | .finite q => .finite (-q)
  | .infinity => .negInfinity
  | .negInfinity => .infinity

/-- `Number(s)`; `none` is `NaN`. -/
def numberOf (s : String) : Option Number :=
  match (trim s).toList with
  | [] => some (.finite 0)
  | '-' :: cs => (unsignedLiteral cs).map negate
  | '+' :: cs => unsignedLiteral cs
  | c :: cs =>
      match (if c = '0' then cs.head?.bind radixOf else none) with
      | some base => (radixLiteral base cs.tail).map fun n => .finite n
      | none => unsignedLiteral (c :: cs)

theorem takeWhile_digits {cs : List Char} (h : ∀ c ∈ cs, c.isDigit = true) :
    cs.takeWhile Char.isDigit = cs ∧ cs.dropWhile Char.isDigit = [] :=
  ⟨List.takeWhile_eq_self_iff.mpr h, List.dropWhile_eq_nil_iff.mpr h⟩

theorem decimalLiteral_digits {cs : List Char} (hne : cs ≠ []) (h : ∀ c ∈ cs, c.isDigit = true) :
    decimalLiteral cs = some (Nat.ofDigitChars 10 cs 0 : ℚ) := by
  unfold decimalLiteral
  rw [(takeWhile_digits h).1, (takeWhile_digits h).2]
  simp [hne, exponentPart]

theorem isDigit_range {c : Char} (h : c.isDigit = true) : 48 ≤ c.toNat ∧ c.toNat ≤ 57 := by
  unfold Char.isDigit at h
  obtain ⟨hlo, hhi⟩ := Bool.and_eq_true_iff.mp h
  exact ⟨UInt32.le_iff_toNat_le.mp (of_decide_eq_true hlo),
    UInt32.le_iff_toNat_le.mp (of_decide_eq_true hhi)⟩

/-- Digits are read as a number, whatever their first one is. -/
theorem unsignedLiteral_digits {cs : List Char} (hne : cs ≠ [])
    (h : ∀ c ∈ cs, c.isDigit = true) :
    unsignedLiteral cs = some (.finite (Nat.ofDigitChars 10 cs 0)) := by
  unfold unsignedLiteral
  rw [if_neg ?_, decimalLiteral_digits hne h]
  · rfl
  · intro hinf
    have hI : 'I' ∈ cs := by
      rw [hinf]
      decide
    exact absurd (h 'I' hI) (by decide)

theorem radixOf_digit {c : Char} (h : c.isDigit = true) : radixOf c = none := by
  obtain ⟨-, hhi⟩ := isDigit_range h
  have hne : ∀ {d : Char}, 57 < d.toNat → c ≠ d := by
    rintro d hd rfl
    omega
  unfold radixOf
  rw [if_neg (not_or.mpr ⟨hne (by decide), hne (by decide)⟩),
    if_neg (not_or.mpr ⟨hne (by decide), hne (by decide)⟩),
    if_neg (not_or.mpr ⟨hne (by decide), hne (by decide)⟩)]

/-- A printed natural number is read back. -/
theorem numberOf_toString (n : ℕ) : numberOf (toString n) = some (.finite n) := by
  have hlist : (toString n).toList = Nat.toDigits 10 n := by
    rw [Nat.toString_eq_ofList_toDigits, String.toList_ofList]
  have hdigit : ∀ c ∈ Nat.toDigits 10 n, c.isDigit = true :=
    fun c hc => Nat.isDigit_of_mem_toDigits (by decide) (by decide) hc
  have htrim : trim (toString n) = toString n := by
    refine trim_eq (fun c hc => ?_)
    rw [hlist] at hc
    obtain ⟨hlo, hhi⟩ := isDigit_range (hdigit c hc)
    exact isSpace_printable (by omega) (by omega)
  unfold numberOf
  rw [htrim, hlist]
  have hvalue := unsignedLiteral_digits Nat.toDigits_ne_nil hdigit
  rw [Nat.ofDigitChars_ten_toDigits] at hvalue
  generalize Nat.toDigits 10 n = ds at hdigit hvalue ⊢
  split
  · cases hvalue
  · exact absurd (hdigit '-' List.mem_cons_self) (by decide)
  · exact absurd (hdigit '+' List.mem_cons_self) (by decide)
  · rename_i c cs _ _
    have hradix : (if c = '0' then cs.head?.bind radixOf else none) = none := by
      by_cases hzero : c = '0'
      · rw [if_pos hzero]
        cases cs with
        | nil => rfl
        | cons d cs => exact radixOf_digit (hdigit d (List.mem_cons_of_mem c List.mem_cons_self))
      · exact if_neg hzero
    rw [hradix]
    exact hvalue

/-! ## Cursors -/

/-- The place of a row in the pages of an account, which run with the ledgers
    (`forward`) or against them. -/
structure Cursor (forward : Bool) where
  ledger : ℕ
  hash : String
  deriving DecidableEq

variable {forward : Bool}

/-- `(ledger_index, hash)`, as rows compare. -/
def Cursor.key (c : Cursor forward) : ℕ ×ₗ String := toLex (c.ledger, c.hash)

theorem Cursor.key_injective : Function.Injective (@Cursor.key forward) := by
  intro a b h
  obtain ⟨hledger, hhash⟩ := Prod.mk.inj (toLex.injective h)
  cases a
  cases b
  cases hledger
  cases hhash
  rfl

/-- Cursors in the order of the pages. -/
instance (forward : Bool) : LinearOrder (Cursor forward) :=
  match forward with
  | true => LinearOrder.lift' Cursor.key Cursor.key_injective
  | false => LinearOrder.lift' (fun c => OrderDual.toDual c.key)
      (OrderDual.toDual.injective.comp Cursor.key_injective)

/-- `"<ledger>:<hash>"`. -/
def printMarker (c : Cursor forward) : String := toString c.ledger ++ ":" ++ c.hash

/-- The row a marker names; `none` for an absent or unparseable one. -/
def parseMarker (forward : Bool) (marker : Option String) : Option (Cursor forward) :=
  marker.bind fun marker =>
    match marker.toList.dropWhile (· ≠ ':') with
    | [] => none
    | _ :: hash =>
        match numberOf (String.ofList (marker.toList.takeWhile (· ≠ ':'))) with
        | some (.finite q) =>
            if q.den = 1 ∧ 0 ≤ q.num ∧ hash ≠ [] then
              some ⟨q.num.toNat, String.ofList hash⟩
            else none
        | _ => none

/-- A printed marker is read back, where the row has a hash. -/
theorem parseMarker_printMarker {c : Cursor forward} (h : c.hash ≠ "") :
    parseMarker forward (some (printMarker c)) = some c := by
  have hlist : (printMarker c).toList = (toString c.ledger).toList ++ ':' :: c.hash.toList := by
    unfold printMarker
    rw [String.toList_append, String.toList_append, List.append_assoc]
    rfl
  have hdigit : ∀ d ∈ (toString c.ledger).toList, decide (d ≠ ':') = true := by
    intro d hd
    rw [Nat.toString_eq_ofList_toDigits, String.toList_ofList] at hd
    obtain ⟨-, hhi⟩ := isDigit_range (Nat.isDigit_of_mem_toDigits (by decide) (by decide) hd)
    refine decide_eq_true ?_
    rintro rfl
    exact absurd hhi (by decide)
  have hcolon : ¬ decide (':' ≠ ':') = true := by decide
  have hdrop : ((toString c.ledger).toList ++ ':' :: c.hash.toList).dropWhile
      (fun d => decide (d ≠ ':')) = ':' :: c.hash.toList := by
    rw [List.dropWhile_append_of_pos hdigit]
    exact List.dropWhile_cons_of_neg hcolon
  have htake : ((toString c.ledger).toList ++ ':' :: c.hash.toList).takeWhile
      (fun d => decide (d ≠ ':')) = (toString c.ledger).toList := by
    rw [List.takeWhile_append_of_pos hdigit,
      show (':' :: c.hash.toList).takeWhile (fun d => decide (d ≠ ':')) = [] from
        List.takeWhile_cons_of_neg hcolon, List.append_nil]
  unfold parseMarker
  rw [Option.bind_some, hlist, hdrop, htake, String.ofList_toList, numberOf_toString]
  have hne : c.hash.toList ≠ [] := fun hnil => h (String.toList_eq_nil_iff.mp hnil)
  simp only [Rat.den_natCast, Rat.num_natCast, Int.toNat_natCast, String.ofList_toList]
  rw [if_pos ⟨trivial, Int.natCast_nonneg _, hne⟩]

end RegistrarMarkers
