import Registrar.AdminLock
import Registrar.Reads

/-! # Currency codes

    The ledger names a currency by 160 bits: a standard code is written with its
    three characters, any other with 40 hexadecimal digits.  The archive stores
    the readable form, the bytes up to the first zero as characters, and writes
    the readable form back as the UTF-8 of its characters padded with zeros.

    The readable form forgets what follows the first zero and which of the two
    ways a code of three characters is written; `conflates_no_other` and the
    theorems after it say of which codes nothing is forgotten. -/

namespace RegistrarCurrency

open KeyedTable RegistrarMetadata RegistrarArchive RegistrarReads
open RegistrarAdmin (normalizeCurrency trim isSpace isSpace_printable)

/-! ## Codes on the ledger -/

/-- The characters of a standard code that are no letters or digits. -/
def currencySymbols : List Char :=
  ['?', '!', '@', '#', '$', '%', '^', '&', '*', '<', '>', '(', ')', '\x7b', '\x7d', '[', ']', '|']

/-- The characters of a standard code. -/
def isCurrencyChar (c : Char) : Bool := c.isAlphanum || c ∈ currencySymbols

/-- A standard code: three characters. -/
def Standard (w : String) : Prop := w.length = 3 ∧ w.toList.all isCurrencyChar

/-- Forty hexadecimal digits. -/
def IsHex (w : String) : Prop :=
  w.length = 40 ∧ w.toList.all (fun c => (hexDigit c).isSome)

/-- The bytes of a code of 40 digits. -/
def bytesOf (w : String) : List ℕ := hexToBytes w.toList

/-- A code of 40 digits whose first byte is not zero. -/
def Nonstandard (w : String) : Prop := IsHex w ∧ (bytesOf w).head? ≠ some 0

/-- A code the ledger can carry. -/
def Carried (w : String) : Prop := Standard w ∨ Nonstandard w

/-- One code, up to the case of hexadecimal digits. -/
def SameCode (w w' : String) : Prop := w = w' ∨ (IsHex w ∧ w.toUpper = w'.toUpper)

instance (w : String) : Decidable (Standard w) := inferInstanceAs (Decidable (_ ∧ _))
instance (w : String) : Decidable (IsHex w) := inferInstanceAs (Decidable (_ ∧ _))
instance (w : String) : Decidable (Nonstandard w) := inferInstanceAs (Decidable (_ ∧ _))
instance (w : String) : Decidable (Carried w) := inferInstanceAs (Decidable (_ ∨ _))
instance (w w' : String) : Decidable (SameCode w w') := inferInstanceAs (Decidable (_ ∨ _))

/-- What a code spells: its bytes before the first zero. -/
def payload (bytes : List ℕ) : List ℕ := bytes.takeWhile (· ≠ 0)

/-! ## Hexadecimal digits -/

/-- The digits of bytes, two each. -/
def hexOf (bytes : List ℕ) : List Char :=
  bytes.flatMap fun b => [currencyToWire.hexChar (b / 16), currencyToWire.hexChar (b % 16)]

theorem hexOf_cons (b : ℕ) (bs : List ℕ) : hexOf (b :: bs)
    = currencyToWire.hexChar (b / 16) :: currencyToWire.hexChar (b % 16) :: hexOf bs := rfl

theorem length_hexOf (bs : List ℕ) : (hexOf bs).length = 2 * bs.length := by
  induction bs with
  | nil => rfl
  | cons b bs ih =>
      rw [hexOf_cons, List.length_cons, List.length_cons, List.length_cons, ih]
      omega

theorem hexOf_append (bs cs : List ℕ) : hexOf (bs ++ cs) = hexOf bs ++ hexOf cs :=
  List.flatMap_append

theorem hexOf_zeros (n : ℕ) : hexOf (List.replicate n 0) = List.replicate (2 * n) '0' := by
  induction n with
  | zero => rfl
  | succ n ih =>
      rw [List.replicate_succ, hexOf_cons, ih, show 2 * (n + 1) = 2 * n + 2 by omega]
      rfl

theorem hexDigit_hexChar : ∀ n < 16, hexDigit (currencyToWire.hexChar n) = some n := by
  decide

theorem toNat_lt_of_hexDigit {c : Char} (h : (hexDigit c).isSome) : c.toNat < 128 := by
  by_contra hge
  have hge : 128 ≤ c.toNat := not_lt.mp hge
  have hout : ∀ d : Char, d.toNat < 128 → ¬ c ≤ d := by
    intro d hd hle
    exact absurd (show c.toNat ≤ d.toNat from hle) (by omega)
  unfold hexDigit at h
  rw [if_neg (fun hc => hout '9' (by decide) hc.2),
    if_neg (fun hc => hout 'F' (by decide) hc.2),
    if_neg (fun hc => hout 'f' (by decide) hc.2)] at h
  cases h

/-- A hexadecimal digit is below sixteen, and its upper case is the digit. -/
theorem hexDigit_some {c : Char} {n : ℕ} (h : hexDigit c = some n) :
    n < 16 ∧ c.toUpper = currencyToWire.hexChar n := by
  have hsmall : ∀ k < 128, ∀ m, hexDigit (Char.ofNat k) = some m →
      m < 16 ∧ (Char.ofNat k).toUpper = currencyToWire.hexChar m := by
    decide +kernel
  have hc := hsmall c.toNat (toNat_lt_of_hexDigit (by rw [h]; rfl)) n
  rw [Char.ofNat_toNat] at hc
  exact hc h

theorem hexToBytes_hexOf {bs : List ℕ} (h : ∀ b ∈ bs, b < 256) : hexToBytes (hexOf bs) = bs := by
  induction bs with
  | nil => rfl
  | cons b bs ih =>
      have hb := h b List.mem_cons_self
      rw [hexOf_cons, hexToBytes, ih (fun c hc => h c (List.mem_cons_of_mem b hc)),
        hexDigit_hexChar _ (by omega), hexDigit_hexChar _ (by omega)]
      have : 16 * (b / 16) + b % 16 = b := by omega
      rw [Option.getD_some, Option.getD_some, this]

/-- The digits of what digits spell are the digits in upper case. -/
theorem hexOf_hexToBytes {n : ℕ} {l : List Char} (hlen : l.length = 2 * n)
    (h : ∀ c ∈ l, (hexDigit c).isSome) :
    hexOf (hexToBytes l) = l.map Char.toUpper ∧ (hexToBytes l).length = n
      ∧ ∀ b ∈ hexToBytes l, b < 256 := by
  induction n generalizing l with
  | zero =>
      cases List.length_eq_zero_iff.mp hlen
      exact ⟨rfl, rfl, fun b hb => absurd hb List.not_mem_nil⟩
  | succ n ih =>
      obtain ⟨hi, lo, rest, rfl⟩ : ∃ hi lo rest, l = hi :: lo :: rest := by
        rcases l with _ | ⟨hi, _ | ⟨lo, rest⟩⟩
        · exact absurd hlen (by simp)
        · exact absurd hlen (by simp; omega)
        · exact ⟨hi, lo, rest, rfl⟩
      obtain ⟨x, hx⟩ := Option.isSome_iff_exists.mp (h hi List.mem_cons_self)
      obtain ⟨y, hy⟩ := Option.isSome_iff_exists.mp
        (h lo (List.mem_cons_of_mem hi List.mem_cons_self))
      obtain ⟨hx16, hxc⟩ := hexDigit_some hx
      obtain ⟨hy16, hyc⟩ := hexDigit_some hy
      obtain ⟨hhex, hlength, hbytes⟩ := ih (l := rest)
        (by simp only [List.length_cons] at hlen; omega)
        (fun c hc => h c (List.mem_cons_of_mem hi (List.mem_cons_of_mem lo hc)))
      have hval : hexToBytes (hi :: lo :: rest) = (16 * x + y) :: hexToBytes rest := by
        rw [hexToBytes, hx, hy, Option.getD_some, Option.getD_some]
      rw [hval]
      refine ⟨?_, ?_, ?_⟩
      · have hdiv : (16 * x + y) / 16 = x := by omega
        have hmod : (16 * x + y) % 16 = y := by omega
        rw [hexOf_cons, hdiv, hmod, hhex, ← hxc, ← hyc]
        rfl
      · rw [List.length_cons, hlength]
      · intro b hb
        rcases List.mem_cons.mp hb with rfl | hb
        · omega
        · exact hbytes b hb

/-! ## Codes of forty digits -/

/-- The characters with the given codes. -/
def chars (codes : List ℕ) : String := String.ofList (codes.map Char.ofNat)

/-- The forty digits of twenty bytes. -/
def wireOf (bytes : List ℕ) : String := String.ofList (hexOf bytes)

theorem codes_chars {codes : List ℕ} (h : ∀ n ∈ codes, n < 256) :
    (chars codes).toList.map Char.toNat = codes := by
  unfold chars
  rw [String.toList_ofList, List.map_map]
  refine (List.map_congr_left (g := id) (fun n hn => ?_)).trans (List.map_id codes)
  have hvalid : n.isValidChar := Or.inl (by have := h n hn; omega)
  show (Char.ofNat n).toNat = n
  rw [Char.toNat_ofNat, if_pos hvalid]

theorem chars_inj {ps qs : List ℕ} (hp : ∀ n ∈ ps, n < 256) (hq : ∀ n ∈ qs, n < 256)
    (h : chars ps = chars qs) : ps = qs := by
  rw [← codes_chars hp, h, codes_chars hq]

/-- A string is the characters of its codes. -/
theorem chars_codes (s : String) : chars (s.toList.map Char.toNat) = s := by
  refine String.toList_inj.mp ?_
  unfold chars
  rw [String.toList_ofList, List.map_map]
  refine (List.map_congr_left (g := id) (fun c _ => ?_)).trans (List.map_id _)
  exact Char.ofNat_toNat c

theorem length_chars (codes : List ℕ) : (chars codes).length = codes.length := by
  unfold chars
  rw [String.length_ofList, List.length_map]

/-- Below the surrogates a character is one code unit. -/
theorem codeUnits_eq_length {s : String} (h : ∀ c ∈ s.toList, c.toNat < 0x10000) :
    codeUnits s = s.length := by
  unfold codeUnits
  rw [← String.length_toList]
  revert h
  induction s.toList with
  | nil => exact fun _ => rfl
  | cons c l ih =>
      intro h
      rw [List.map_cons, List.sum_cons, if_pos (h c List.mem_cons_self),
        ih (fun d hd => h d (List.mem_cons_of_mem c hd)), List.length_cons, add_comm]

theorem length_le_codeUnits (s : String) : s.length ≤ codeUnits s := by
  unfold codeUnits
  rw [← String.length_toList]
  induction s.toList with
  | nil => exact le_rfl
  | cons c l ih =>
      rw [List.map_cons, List.sum_cons, List.length_cons]
      by_cases hc : c.toNat < 0x10000
      · rw [if_pos hc]
        omega
      · rw [if_neg hc]
        omega

theorem codeUnits_chars {codes : List ℕ} (h : ∀ n ∈ codes, n < 256) :
    codeUnits (chars codes) = codes.length := by
  rw [codeUnits_eq_length, length_chars]
  intro c hc
  have hmem : c.toNat ∈ codes := codes_chars h ▸ List.mem_map_of_mem hc
  have := h _ hmem
  omega

namespace IsHex

variable {w : String}

theorem digits (h : IsHex w) : ∀ c ∈ w.toList, (hexDigit c).isSome :=
  List.all_eq_true.mp h.2

theorem spelled (h : IsHex w) : hexOf (bytesOf w) = w.toList.map Char.toUpper
    ∧ (bytesOf w).length = 20 ∧ ∀ b ∈ bytesOf w, b < 256 :=
  hexOf_hexToBytes (n := 20) (String.length_toList.trans h.1) h.digits

/-- In upper case, a code is the digits of its bytes. -/
theorem toUpper_eq (h : IsHex w) : w.toUpper = wireOf (bytesOf w) := by
  refine String.toList_inj.mp ?_
  unfold wireOf
  rw [String.toUpper, String.toList_map, String.toList_ofList, h.spelled.1]

theorem codeUnits_eq (h : IsHex w) : codeUnits w = 40 := by
  rw [codeUnits_eq_length, h.1]
  intro c hc
  have := toNat_lt_of_hexDigit (h.digits c hc)
  omega

theorem payload_lt (h : IsHex w) : ∀ b ∈ payload (bytesOf w), b < 256 :=
  fun b hb => h.spelled.2.2 b ((List.takeWhile_prefix _).subset hb)

/-- Codes of the same bytes are the same. -/
theorem same_of_bytes {w' : String} (h : IsHex w) (h' : IsHex w')
    (hbytes : bytesOf w = bytesOf w') : SameCode w w' :=
  Or.inr ⟨h, by rw [h.toUpper_eq, h'.toUpper_eq, hbytes]⟩

theorem currencyToString_eq (h : IsHex w) (hne : payload (bytesOf w) ≠ []) :
    currencyToString w = chars (payload (bytesOf w)) := by
  unfold currencyToString
  have hout : chars (payload (bytesOf w)) ≠ "" := by
    intro hempty
    refine hne (List.length_eq_zero_iff.mp ?_)
    rw [← length_chars, hempty]
    rfl
  have hunits : codeUnits w ≠ 3 := by rw [h.codeUnits_eq]; decide
  rw [if_neg hunits]
  exact (if_pos h).trans (if_neg hout)

end IsHex

namespace SameCode

variable {w w' : String}

theorem length_eq (h : SameCode w w') : w.length = w'.length := by
  rcases h with rfl | ⟨-, h⟩
  · rfl
  · have := congrArg String.length h
    rwa [String.toUpper, String.toUpper, String.length_map, String.length_map] at this

end SameCode

/-- Twenty bytes have forty digits. -/
theorem isHex_wireOf {bytes : List ℕ} (hlen : bytes.length = 20) (hlt : ∀ b ∈ bytes, b < 256) :
    IsHex (wireOf bytes) ∧ bytesOf (wireOf bytes) = bytes := by
  have hlist : (wireOf bytes).toList = hexOf bytes := String.toList_ofList
  refine ⟨⟨?_, ?_⟩, ?_⟩
  · rw [← String.length_toList, hlist, length_hexOf, hlen]
  · rw [hlist, List.all_eq_true]
    intro c hc
    obtain ⟨b, hb, hc⟩ := List.mem_flatMap.mp hc
    have := hlt b hb
    rcases List.mem_pair.mp hc with rfl | rfl
    · rw [hexDigit_hexChar _ (by omega)]
      rfl
    · rw [hexDigit_hexChar _ (by omega)]
      rfl
  · unfold bytesOf
    rw [hlist, hexToBytes_hexOf hlt]

theorem wireOf_inj {bs cs : List ℕ} (hb : ∀ b ∈ bs, b < 256) (hc : ∀ b ∈ cs, b < 256)
    (h : wireOf bs = wireOf cs) : bs = cs := by
  have hhex : hexOf bs = hexOf cs := String.ofList_injective h
  rw [← hexToBytes_hexOf hb, hhex, hexToBytes_hexOf hc]

theorem SameCode.bytes_eq {w w' : String} (h : SameCode w w') (hw : IsHex w) (hw' : IsHex w') :
    bytesOf w = bytesOf w' := by
  rcases h with rfl | ⟨-, h⟩
  · rfl
  · rw [hw.toUpper_eq, hw'.toUpper_eq] at h
    exact wireOf_inj hw.spelled.2.2 hw'.spelled.2.2 h

/-! ## What a code spells -/

theorem payload_nonzero {bs : List ℕ} : ∀ b ∈ payload bs, b ≠ 0 := by
  intro b hb
  have hdec : decide (b ≠ 0) = true :=
    List.mem_takeWhile_imp (p := fun b => decide (b ≠ 0)) hb
  exact of_decide_eq_true hdec

theorem payload_append_zero {ps : List ℕ} (h : ∀ p ∈ ps, p ≠ 0) (rest : List ℕ) :
    payload (ps ++ 0 :: rest) = ps := by
  unfold payload
  rw [List.takeWhile_append_of_pos (fun p hp => decide_eq_true (h p hp)),
    List.takeWhile_cons_of_neg (by decide), List.append_nil]

theorem payload_self {ps : List ℕ} (h : ∀ p ∈ ps, p ≠ 0) : payload ps = ps :=
  List.takeWhile_eq_self_iff.mpr (fun p hp => decide_eq_true (h p hp))

theorem payload_append_zeros {ps : List ℕ} (h : ∀ p ∈ ps, p ≠ 0) (n : ℕ) :
    payload (ps ++ List.replicate n 0) = ps := by
  cases n with
  | zero => rw [List.replicate_zero, List.append_nil, payload_self h]
  | succ n => exact payload_append_zero h _

/-- The bytes are the payload, and if there are more, a zero and the rest. -/
theorem payload_cases (bs : List ℕ) :
    bs = payload bs ∨ ∃ rest, bs = payload bs ++ 0 :: rest := by
  have hsplit : payload bs ++ bs.dropWhile (· ≠ 0) = bs := List.takeWhile_append_dropWhile
  cases hrest : bs.dropWhile (· ≠ 0) with
  | nil =>
      rw [hrest, List.append_nil] at hsplit
      exact Or.inl hsplit.symm
  | cons b rest =>
      have hb : ¬ (decide (b ≠ 0)) = true := by
        have hne : bs.dropWhile (fun b => decide (b ≠ 0)) ≠ [] := by
          rw [hrest]
          exact List.cons_ne_nil b rest
        have hhead := List.head_dropWhile_not (fun b : ℕ => decide (b ≠ 0)) hne
        simp only [hrest, List.head_cons] at hhead
        rw [hhead]
        exact Bool.false_ne_true
      have hb : b = 0 := not_not.mp (fun hne => hb (decide_eq_true hne))
      rw [hrest, hb] at hsplit
      exact Or.inr ⟨rest, hsplit.symm⟩

/-- Zeros at the end spell nothing. -/
theorem payload_padded (bs : List ℕ) (n : ℕ) :
    payload (bs ++ List.replicate n 0) = payload bs := by
  rcases payload_cases bs with heq | ⟨rest, heq⟩
  · rw [heq, payload_append_zeros payload_nonzero, payload_self payload_nonzero]
  · conv_lhs => rw [heq, List.append_assoc, List.cons_append]
    exact payload_append_zero payload_nonzero _

theorem length_payload_le (bs : List ℕ) : (payload bs).length ≤ bs.length :=
  (List.takeWhile_prefix _).length_le

/-- The payload reaches as far as there is no zero. -/
theorem take_nonzero_iff {bs : List ℕ} {n : ℕ} (hn : n ≤ bs.length) :
    (∀ b ∈ bs.take n, b ≠ 0) ↔ n ≤ (payload bs).length := by
  constructor
  · intro h
    rcases payload_cases bs with heq | ⟨rest, heq⟩
    · rwa [← heq]
    · by_contra hlt
      refine h 0 ?_ rfl
      rw [heq, List.take_append, List.mem_append]
      obtain ⟨k, hk⟩ : ∃ k, n - (payload bs).length = k + 1 :=
        ⟨n - (payload bs).length - 1, by omega⟩
      rw [hk, List.take_succ_cons]
      exact Or.inr List.mem_cons_self
  · intro h b hb
    have hpre : bs.take n <+: payload bs :=
      List.prefix_of_prefix_length_le (List.take_prefix n bs) (List.takeWhile_prefix _)
        (by rwa [List.length_take_of_le hn])
    exact payload_nonzero b (hpre.subset hb)

/-- Where the payload leaves out at most the last byte, it tells the bytes. -/
theorem bytes_eq_of_payload {n : ℕ} {bs cs : List ℕ} (hb : bs.length = n + 1)
    (hc : cs.length = n + 1) (hn : n ≤ (payload bs).length) (h : payload bs = payload cs) :
    bs = cs := by
  have hpad : ∀ {ds : List ℕ}, ds.length = n + 1 → n ≤ (payload ds).length →
      ds = payload ds ++ List.replicate (n + 1 - (payload ds).length) 0 := by
    intro ds hd hle
    rcases payload_cases ds with heq | ⟨rest, heq⟩
    · have hlen : (payload ds).length = n + 1 := by rw [← heq, hd]
      rw [hlen, Nat.sub_self, List.replicate_zero, List.append_nil]
      exact heq
    · have hlen : ds.length = (payload ds).length + (rest.length + 1) := by
        conv_lhs => rw [heq]
        rw [List.length_append, List.length_cons]
      have hrest : rest = [] := List.length_eq_zero_iff.mp (by omega)
      have hone : n + 1 - (payload ds).length = 1 := by omega
      rw [hone]
      rw [hrest] at heq
      exact heq
  rw [hpad hb hn, hpad hc (h ▸ hn), h]

theorem Nonstandard.payload_ne {w : String} (h : Nonstandard w) : payload (bytesOf w) ≠ [] := by
  have hlen := h.1.spelled.2.1
  have hhead := h.2
  cases hbs : bytesOf w with
  | nil =>
      rw [hbs] at hlen
      exact absurd hlen (by decide)
  | cons b bs =>
      rw [hbs, List.head?_cons] at hhead
      have hb : (fun b : ℕ => decide (b ≠ 0)) b = true :=
        decide_eq_true (fun hb => hhead (congrArg some hb))
      have hcons : payload (b :: bs) = b :: payload bs := List.takeWhile_cons_of_pos hb
      rw [hcons]
      exact List.cons_ne_nil b _

theorem Nonstandard.currencyToString_eq {w : String} (h : Nonstandard w) :
    currencyToString w = chars (payload (bytesOf w)) :=
  h.1.currencyToString_eq h.payload_ne

/-- Twenty bytes that do not start with a zero are those of a code. -/
theorem code_of_bytes {ps rest : List ℕ} (hlen : (ps ++ rest).length = 20)
    (hlt : ∀ b ∈ ps ++ rest, b < 256) (hne : ps ≠ []) (hpayload : payload (ps ++ rest) = ps) :
    Nonstandard (wireOf (ps ++ rest)) ∧ currencyToString (wireOf (ps ++ rest)) = chars ps := by
  obtain ⟨hhex, hbytes⟩ := isHex_wireOf hlen hlt
  have hcode : Nonstandard (wireOf (ps ++ rest)) := by
    refine ⟨hhex, ?_⟩
    rw [hbytes]
    cases ps with
    | nil => exact absurd rfl hne
    | cons p ps =>
        have hp : p ≠ 0 := payload_nonzero p (hpayload ▸ List.mem_cons_self)
        rw [List.cons_append, List.head?_cons]
        exact fun h => hp (Option.some.inj h)
  refine ⟨hcode, ?_⟩
  rw [hcode.currencyToString_eq, hbytes, hpayload]

/-! ## Standard codes -/

theorem currencyChar_range {c : Char} (h : isCurrencyChar c) : 32 < c.toNat ∧ c.toNat < 128 := by
  have hsymbols : currencySymbols.all (fun c => 32 < c.toNat && c.toNat < 128) = true := by
    rfl
  rcases Bool.or_eq_true_iff.mp h with halpha | hsymbol
  · have hrange : (65 ≤ c.toNat ∧ c.toNat ≤ 90) ∨ (97 ≤ c.toNat ∧ c.toNat ≤ 122)
        ∨ (48 ≤ c.toNat ∧ c.toNat ≤ 57) := by
      simp only [Char.isAlphanum, Char.isAlpha, Char.isUpper, Char.isLower, Char.isDigit,
        Bool.or_eq_true, Bool.and_eq_true, decide_eq_true_eq, or_assoc] at halpha
      exact halpha
    omega
  · have hc := List.all_eq_true.mp hsymbols c (of_decide_eq_true hsymbol)
    obtain ⟨hlo, hhi⟩ := Bool.and_eq_true_iff.mp hc
    exact ⟨of_decide_eq_true hlo, of_decide_eq_true hhi⟩

namespace Standard

variable {w : String}

theorem char_range (h : Standard w) : ∀ c ∈ w.toList, 32 < c.toNat ∧ c.toNat < 128 :=
  fun c hc => currencyChar_range (List.all_eq_true.mp h.2 c hc)

theorem codeUnits_eq (h : Standard w) : codeUnits w = 3 := by
  rw [codeUnits_eq_length, h.1]
  intro c hc
  have := h.char_range c hc
  omega

theorem currencyToString_eq (h : Standard w) : currencyToString w = w :=
  if_pos h.codeUnits_eq

theorem not_isHex (h : Standard w) : ¬ IsHex w :=
  fun hhex => absurd (h.1.symm.trans hhex.1) (by decide)

/-- The code of forty digits that spells the three characters. -/
theorem exists_spelling (h : Standard w) :
    ∃ w', Nonstandard w' ∧ currencyToString w' = w := by
  have hcodes : ∀ n ∈ w.toList.map Char.toNat, n ≠ 0 ∧ n < 256 := by
    intro n hn
    obtain ⟨c, hc, rfl⟩ := List.mem_map.mp hn
    have := h.char_range c hc
    omega
  have hne : w.toList.map Char.toNat ≠ [] := by
    intro hnil
    have hlen := congrArg List.length hnil
    rw [List.length_map, String.length_toList, h.1] at hlen
    exact absurd hlen (by decide)
  obtain ⟨hcode, hreads⟩ := @code_of_bytes (w.toList.map Char.toNat) (List.replicate 17 0)
    (by rw [List.length_append, List.length_map, String.length_toList, h.1,
      List.length_replicate])
    (fun b hb => by
      rcases List.mem_append.mp hb with hb | hb
      · exact (hcodes b hb).2
      · rw [List.eq_of_mem_replicate hb]
        decide)
    hne (payload_append_zeros (fun p hp => (hcodes p hp).1) 17)
  exact ⟨_, hcode, hreads.trans (chars_codes w)⟩

end Standard

/-! ## Which codes are read alone -/

/-- **A CODE IS READ ALONE** if it has forty digits and no zero among its first
    nineteen bytes, and only then: no other code of the ledger has its readable
    form. -/
theorem conflates_no_other {w : String} (hw : Carried w) :
    (∀ w', Carried w' → currencyToString w' = currencyToString w → SameCode w' w) ↔
      Nonstandard w ∧ ∀ b ∈ (bytesOf w).take 19, b ≠ 0 := by
  constructor
  · intro hone
    rcases hw with hstd | hcode
    · obtain ⟨w', hw', hread⟩ := hstd.exists_spelling
      have hsame := hone w' (Or.inr hw') (hread.trans hstd.currencyToString_eq.symm)
      have := hsame.length_eq
      rw [hw'.1.1, hstd.1] at this
      exact absurd this (by decide)
    · refine ⟨hcode, ?_⟩
      obtain ⟨-, hlen, hlt⟩ := hcode.1.spelled
      rw [take_nonzero_iff (by omega)]
      by_contra hshort
      -- two codes that differ after the first zero are both read as `w`
      have hother : ∀ b < 256, ∀ n, (payload (bytesOf w)).length + (n + 2) = 20 →
          bytesOf w = payload (bytesOf w) ++ 0 :: b :: List.replicate n 0 := by
        intro b hb n hn
        have hlt' : ∀ c ∈ payload (bytesOf w) ++ 0 :: b :: List.replicate n 0, c < 256 := by
          intro c hc
          rcases List.mem_append.mp hc with hc | hc
          · exact hcode.1.payload_lt c hc
          · rcases List.mem_cons.mp hc with rfl | hc
            · decide
            · rcases List.mem_cons.mp hc with rfl | hc
              · exact hb
              · rw [List.eq_of_mem_replicate hc]
                decide
        have hlen' : (payload (bytesOf w) ++ 0 :: b :: List.replicate n 0).length = 20 := by
          rw [List.length_append, List.length_cons, List.length_cons, List.length_replicate, hn]
        obtain ⟨hcode', hread⟩ := code_of_bytes hlen' hlt' hcode.payload_ne
          (payload_append_zero payload_nonzero _)
        have hsame := hone _ (Or.inr hcode') (hread.trans hcode.currencyToString_eq.symm)
        exact (hsame.bytes_eq hcode'.1 hcode.1).symm.trans (isHex_wireOf hlen' hlt').2
      obtain ⟨n, hn⟩ : ∃ n, (payload (bytesOf w)).length + (n + 2) = 20 :=
        ⟨18 - (payload (bytesOf w)).length, by omega⟩
      have hzero := hother 0 (by decide) n hn
      have hone' := hother 1 (by decide) n hn
      have htails := List.append_cancel_left (hzero.symm.trans hone')
      exact absurd (List.cons.inj (List.cons.inj htails).2).1 (by decide)
  · rintro ⟨hcode, hnonzero⟩ w' hw' hread
    obtain ⟨-, hlen, -⟩ := hcode.1.spelled
    rw [take_nonzero_iff (by omega)] at hnonzero
    rw [hcode.currencyToString_eq] at hread
    rcases hw' with hstd | hcode'
    · rw [hstd.currencyToString_eq] at hread
      have hthree := hstd.1
      rw [hread, length_chars] at hthree
      omega
    · rw [hcode'.currencyToString_eq] at hread
      have hpayload := chars_inj hcode'.1.payload_lt hcode.1.payload_lt hread
      refine hcode'.1.same_of_bytes hcode.1 (Eq.symm ?_)
      exact bytes_eq_of_payload hlen hcode'.1.spelled.2.1 hnonzero hpayload.symm

/-! ## UTF-8 -/

/-- The bytes of a character in UTF-8. -/
def utf8 (c : Char) : List ℕ := (String.utf8EncodeChar c).map UInt8.toNat

/-- The bytes of a string in UTF-8. -/
def utf8Bytes (s : String) : List ℕ := s.toList.flatMap utf8

theorem byteArray_toList (bs : ByteArray) : bs.toList = bs.data.toList := by
  have hloop : ∀ n i (r : List UInt8), bs.size - i = n →
      ByteArray.toList.loop bs i r = r.reverse ++ bs.data.toList.drop i := by
    intro n
    induction n with
    | zero =>
        intro i r hn
        have hle : bs.data.toList.length ≤ i := by
          rw [Array.length_toList]
          exact Nat.sub_eq_zero_iff_le.mp hn
        rw [ByteArray.toList.loop, if_neg (by omega), List.drop_eq_nil_of_le hle,
          List.append_nil]
    | succ n ih =>
        intro i r hn
        have hlt : i < bs.size := by omega
        have hget : bs.data.toList.drop i = bs.get! i :: bs.data.toList.drop (i + 1) := by
          have hlen : i < bs.data.toList.length := by
            rw [Array.length_toList]
            exact hlt
          rw [List.drop_eq_getElem_cons hlen]
          refine congrArg (· :: _) ?_
          rw [Array.getElem_toList]
          exact (getElem!_pos bs.data i hlt).symm
        rw [ByteArray.toList.loop, if_pos hlt, ih (i + 1) _ (by omega), hget,
          List.reverse_cons, List.append_assoc]
        rfl
  exact (hloop bs.size 0 [] (Nat.sub_zero _)).trans (by rw [List.drop_zero]; rfl)

theorem toUTF8_toList (s : String) : s.toUTF8.toList.map UInt8.toNat = utf8Bytes s := by
  have hbytes : s.toUTF8.toList = s.toList.flatMap String.utf8EncodeChar := by
    rw [byteArray_toList, String.toUTF8_eq_toByteArray, ← String.utf8Encode_toList]
    exact List.toList_data_toByteArray
  rw [hbytes, List.map_flatMap]
  rfl

theorem utf8_ascii {c : Char} (h : c.toNat < 128) : utf8 c = [c.toNat] := by
  unfold utf8 String.utf8EncodeChar
  rw [if_pos (show c.val.toNat ≤ 0x7f by exact Nat.le_of_lt_succ h)]
  have hmod : c.toNat % 2 ^ 8 = c.toNat := Nat.mod_eq_of_lt (by omega)
  show [(UInt8.ofNat c.toNat).toNat] = [c.toNat]
  rw [UInt8.toNat_ofNat', hmod]

/-- Another character has two bytes or more. -/
theorem utf8_length {c : Char} (h : 128 ≤ c.toNat) : 2 ≤ (utf8 c).length := by
  unfold utf8
  rw [List.length_map, String.length_utf8EncodeChar]
  have hpos := Char.utf8Size_pos c
  have hne : c.utf8Size ≠ 1 := by
    intro hone
    have hle : c.toNat ≤ 127 := Char.utf8Size_eq_one_iff.mp hone
    omega
  omega

/-- Only the zero character has a zero byte. -/
theorem utf8_nonzero {c : Char} (h : c.toNat ≠ 0) : ∀ b ∈ utf8 c, b ≠ 0 := by
  by_cases hascii : c.toNat < 128
  · rw [utf8_ascii hascii]
    intro b hb
    rw [List.mem_singleton.mp hb]
    exact h
  · intro b hb
    have hge : 128 ≤ c.val.toNat := not_lt.mp hascii
    obtain ⟨x, hx, rfl⟩ := List.mem_map.mp hb
    unfold String.utf8EncodeChar at hx
    dsimp only at hx
    have hbyte : ∀ n, 128 ≤ n → n < 256 → (UInt8.ofNat n).toNat ≠ 0 := by
      intro n hlo hhi
      rw [UInt8.toNat_ofNat', Nat.mod_eq_of_lt hhi]
      omega
    split at hx
    · omega
    · split at hx
      · rcases List.mem_pair.mp hx with rfl | rfl <;> exact hbyte _ (by omega) (by omega)
      · split at hx
        · simp only [List.mem_cons, List.not_mem_nil, or_false] at hx
          rcases hx with rfl | rfl | rfl <;> exact hbyte _ (by omega) (by omega)
        · simp only [List.mem_cons, List.not_mem_nil, or_false] at hx
          rcases hx with rfl | rfl | rfl | rfl <;> exact hbyte _ (by omega) (by omega)

/-- The bytes of ASCII characters are their codes. -/
theorem utf8Bytes_ascii {s : String} (h : ∀ c ∈ s.toList, c.toNat < 128) :
    utf8Bytes s = s.toList.map Char.toNat := by
  rw [List.map_eq_flatMap]
  exact List.flatMap_congr (fun c hc => utf8_ascii (h c hc))

theorem utf8Bytes_lt (s : String) : ∀ b ∈ utf8Bytes s, b < 256 := by
  intro b hb
  obtain ⟨c, -, hb⟩ := List.mem_flatMap.mp hb
  obtain ⟨x, -, rfl⟩ := List.mem_map.mp hb
  exact x.toNat_lt

theorem utf8Bytes_nonzero {s : String} (h : ∀ c ∈ s.toList, c.toNat ≠ 0) :
    ∀ b ∈ utf8Bytes s, b ≠ 0 := by
  intro b hb
  obtain ⟨c, hc, hb⟩ := List.mem_flatMap.mp hb
  exact utf8_nonzero (h c hc) b hb

/-- A string with no more bytes than characters is ASCII. -/
theorem ascii_of_length {s : String} (h : (utf8Bytes s).length ≤ s.length) :
    ∀ c ∈ s.toList, c.toNat < 128 := by
  have hlist : ∀ l : List Char, l.length ≤ (l.flatMap utf8).length
      ∧ ((l.flatMap utf8).length ≤ l.length → ∀ c ∈ l, c.toNat < 128) := by
    intro l
    induction l with
    | nil => exact ⟨le_rfl, fun _ c hc => absurd hc List.not_mem_nil⟩
    | cons c l ih =>
        rw [List.flatMap_cons, List.length_append, List.length_cons]
        by_cases hascii : c.toNat < 128
        · rw [utf8_ascii hascii, List.length_singleton]
          refine ⟨by omega, fun hle d hd => ?_⟩
          rcases List.mem_cons.mp hd with rfl | hd
          · exact hascii
          · exact ih.2 (by omega) d hd
        · have := utf8_length (not_lt.mp hascii)
          exact ⟨by omega, fun hle => by omega⟩
  rw [← String.length_toList] at h
  exact (hlist s.toList).2 h

/-! ## Writing a code back -/

theorem currencyToWire_eq {c : String} (h : codeUnits c ≠ 3) :
    currencyToWire c = String.ofList (hexOf (utf8Bytes c)
      ++ List.replicate (40 - 2 * (utf8Bytes c).length) '0') := by
  have hhex : (c.toUTF8.toList.flatMap fun b =>
      [currencyToWire.hexChar (b.toNat / 16), currencyToWire.hexChar (b.toNat % 16)])
      = hexOf (utf8Bytes c) := by
    rw [← toUTF8_toList, hexOf, List.flatMap_map]
  unfold currencyToWire
  rw [if_neg h, hhex, ← length_hexOf]

/-- Up to twenty bytes are padded with zeros. -/
theorem currencyToWire_short {c : String} (h : codeUnits c ≠ 3)
    (hshort : (utf8Bytes c).length ≤ 20) : currencyToWire c
      = wireOf (utf8Bytes c ++ List.replicate (20 - (utf8Bytes c).length) 0) := by
  rw [currencyToWire_eq h]
  unfold wireOf
  rw [hexOf_append, hexOf_zeros, show 2 * (20 - (utf8Bytes c).length)
    = 40 - 2 * (utf8Bytes c).length by omega]

theorem length_currencyToWire_long {c : String} (h : codeUnits c ≠ 3)
    (hlong : 20 < (utf8Bytes c).length) : 40 < (currencyToWire c).length := by
  rw [currencyToWire_eq h, String.length_ofList, List.length_append, length_hexOf]
  omega

/-- Bytes padded to twenty. -/
theorem padded_bytes {u : List ℕ} (hshort : u.length ≤ 20) (hlt : ∀ b ∈ u, b < 256) :
    (u ++ List.replicate (20 - u.length) 0).length = 20
      ∧ ∀ b ∈ u ++ List.replicate (20 - u.length) 0, b < 256 := by
  constructor
  · rw [List.length_append, List.length_replicate]
    omega
  · intro b hb
    rcases List.mem_append.mp hb with hb | hb
    · exact hlt b hb
    · rw [List.eq_of_mem_replicate hb]
      decide

/-! ## Registering a code -/

/-- The bytes spell ASCII characters, not three of them, and end in zeros. -/
structure Readable (bytes : List ℕ) : Prop where
  ascii : ∀ b ∈ payload bytes, b < 128
  notThree : (payload bytes).length ≠ 3
  padded : ∀ b ∈ bytes.drop (payload bytes).length, b = 0

theorem Readable.bytes_eq {bytes : List ℕ} (h : Readable bytes) :
    bytes = payload bytes ++ List.replicate (bytes.length - (payload bytes).length) 0 := by
  have hsplit : payload bytes ++ bytes.drop (payload bytes).length = bytes :=
    List.prefix_iff_eq_append.mp (List.takeWhile_prefix _)
  have hzeros : bytes.drop (payload bytes).length
      = List.replicate (bytes.length - (payload bytes).length) 0 :=
    List.eq_replicate_iff.mpr ⟨List.length_drop, h.padded⟩
  rw [← hzeros, hsplit]

theorem normalizeCurrency_ok {input c : String} (h : normalizeCurrency input = .ok c) :
    c = currencyToString (trim input) ∧ c ≠ "" ∧ codeUnits c ≤ 20 := by
  unfold normalizeCurrency at h
  generalize currencyToString (trim input) = code at h ⊢
  by_cases hempty : code = ""
  · rw [if_pos hempty] at h
    cases h
  by_cases hxrp : code = "XRP"
  · rw [if_neg hempty, if_pos hxrp] at h
    cases h
  by_cases hlong : codeUnits code > 20
  · rw [if_neg hempty, if_neg hxrp, if_pos hlong] at h
    cases h
  rw [if_neg hempty, if_neg hxrp, if_neg hlong] at h
  cases h
  exact ⟨rfl, hempty, not_lt.mp hlong⟩

/-- A code of the ledger has no white space. -/
theorem Carried.trim_eq {w : String} (h : Carried w) : trim w = w := by
  refine RegistrarAdmin.trim_eq (fun c hc => ?_)
  rcases h with hstd | hcode
  · obtain ⟨hlo, hhi⟩ := hstd.char_range c hc
    exact isSpace_printable hlo hhi
  · have hdigit := hcode.1.digits c hc
    have hhi := toNat_lt_of_hexDigit hdigit
    have hsmall : ∀ k < 128, (hexDigit (Char.ofNat k)).isSome → 32 < k := by
      decide +kernel
    have hlo := hsmall c.toNat hhi
    rw [Char.ofNat_toNat] at hlo
    exact isSpace_printable (hlo hdigit) hhi

/-- A registered code is stored in its readable form. -/
theorem Carried.stored {w c : String} (hw : Carried w) (h : normalizeCurrency w = .ok c) :
    c = currencyToString w := by
  rw [(normalizeCurrency_ok h).1, hw.trim_eq]

/-- **A CODE OF FORTY DIGITS COMES BACK** from the archive if it is readable. -/
theorem Nonstandard.wire_iff {w : String} (h : Nonstandard w) :
    currencyToWire (chars (payload (bytesOf w))) = w.toUpper ↔ Readable (bytesOf w) := by
  obtain ⟨-, hlen, hlt⟩ := h.1.spelled
  have hpayload := h.1.payload_lt
  have hunits := codeUnits_chars hpayload
  have hle : (payload (bytesOf w)).length ≤ 20 := hlen ▸ length_payload_le (bytesOf w)
  have hcodes := codes_chars hpayload
  constructor
  · intro hwire
    rw [h.1.toUpper_eq] at hwire
    have hforty : (wireOf (bytesOf w)).length = 40 := (isHex_wireOf hlen hlt).1.1
    by_cases hthree : (payload (bytesOf w)).length = 3
    · have hself : currencyToWire (chars (payload (bytesOf w))) = chars (payload (bytesOf w)) :=
        if_pos (hunits.trans hthree)
      rw [← hwire, hself, length_chars, hthree] at hforty
      exact absurd hforty (by decide)
    have hne : codeUnits (chars (payload (bytesOf w))) ≠ 3 := hunits ▸ hthree
    have hshort : (utf8Bytes (chars (payload (bytesOf w)))).length ≤ 20 := by
      by_contra hlong
      have := length_currencyToWire_long hne (not_le.mp hlong)
      rw [hwire, hforty] at this
      exact lt_irrefl _ this
    rw [currencyToWire_short hne hshort] at hwire
    have hpad := padded_bytes hshort (utf8Bytes_lt _)
    have hbytes := wireOf_inj hpad.2 hlt hwire
    -- the payload has no zero, so the bytes written are those read
    have hnonzero : ∀ c ∈ (chars (payload (bytesOf w))).toList, c.toNat ≠ 0 := by
      intro c hc
      exact payload_nonzero c.toNat (hcodes ▸ List.mem_map_of_mem hc)
    have hread : payload (bytesOf w) = utf8Bytes (chars (payload (bytesOf w))) := by
      conv_lhs => rw [← hbytes]
      exact payload_append_zeros (utf8Bytes_nonzero hnonzero) _
    have hascii := ascii_of_length (s := chars (payload (bytesOf w)))
      (by rw [← hread, length_chars])
    refine ⟨fun b hb => ?_, hthree, fun b hb => ?_⟩
    · rw [← hcodes] at hb
      obtain ⟨c, hc, rfl⟩ := List.mem_map.mp hb
      exact hascii c hc
    · rw [← hbytes, ← hread, payload_append_zeros payload_nonzero, List.drop_left] at hb
      exact List.eq_of_mem_replicate hb
  · intro hread
    have hascii : ∀ c ∈ (chars (payload (bytesOf w))).toList, c.toNat < 128 := by
      intro c hc
      exact hread.ascii c.toNat (hcodes ▸ List.mem_map_of_mem hc)
    have hutf8 : utf8Bytes (chars (payload (bytesOf w))) = payload (bytesOf w) :=
      (utf8Bytes_ascii hascii).trans hcodes
    rw [currencyToWire_short (hunits ▸ hread.notThree) (by rw [hutf8]; exact hle), hutf8,
      h.1.toUpper_eq]
    refine congrArg wireOf ?_
    conv_rhs => rw [hread.bytes_eq, hlen]

/-- What a registered code is written back as. -/
theorem wire_of_registered {w c : String} (hw : Carried w) (h : normalizeCurrency w = .ok c) :
    currencyToWire c = w.toUpper ↔
      (Standard w ∧ w.toUpper = w) ∨ (Nonstandard w ∧ Readable (bytesOf w)) := by
  rw [hw.stored h]
  rcases hw with hstd | hcode
  · have hself : currencyToWire w = w := if_pos hstd.codeUnits_eq
    rw [hstd.currencyToString_eq, hself]
    constructor
    · exact fun hup => Or.inl ⟨hstd, hup.symm⟩
    · rintro (⟨-, hup⟩ | ⟨hcode, -⟩)
      · exact hup.symm
      · exact absurd hcode.1 hstd.not_isHex
  · rw [hcode.currencyToString_eq, hcode.wire_iff]
    constructor
    · exact fun hread => Or.inr ⟨hcode, hread⟩
    · rintro (⟨hstd, -⟩ | ⟨-, hread⟩)
      · exact absurd hcode.1 hstd.not_isHex
      · exact hread

/-- **A STORED CODE COMES BACK** from its wire form if it has three characters or
    is ASCII without a zero. -/
theorem stored_of_wire {input c : String} (h : normalizeCurrency input = .ok c) :
    currencyToString (currencyToWire c) = c ↔
      codeUnits c = 3 ∨ ∀ ch ∈ c.toList, 0 < ch.toNat ∧ ch.toNat < 128 := by
  obtain ⟨-, hne, hunits⟩ := normalizeCurrency_ok h
  have hlength := length_le_codeUnits c
  by_cases hthree : codeUnits c = 3
  · have hself : currencyToWire c = c := if_pos hthree
    have hread : currencyToString c = c := if_pos hthree
    rw [hself, hread]
    exact ⟨fun _ => Or.inl hthree, fun _ => rfl⟩
  by_cases hlong : 20 < (utf8Bytes c).length
  · -- more than forty digits are left as they are
    have hforty := length_currencyToWire_long hthree hlong
    have hread : currencyToString (currencyToWire c) = currencyToWire c := by
      unfold currencyToString
      have := length_le_codeUnits (currencyToWire c)
      rw [if_neg (by omega), if_neg (fun hhex => by omega)]
    rw [hread]
    constructor
    · intro heq
      rw [heq] at hforty
      omega
    · rintro (h3 | hascii)
      · exact absurd h3 hthree
      · rw [utf8Bytes_ascii (fun ch hch => (hascii ch hch).2), List.length_map,
          String.length_toList] at hlong
        omega
  have hshort : (utf8Bytes c).length ≤ 20 := not_lt.mp hlong
  obtain ⟨hlen, hlt⟩ := padded_bytes hshort (utf8Bytes_lt c)
  obtain ⟨hhex, hbytes⟩ := isHex_wireOf hlen hlt
  rw [currencyToWire_short hthree hshort]
  generalize wireOf (utf8Bytes c ++ List.replicate (20 - (utf8Bytes c).length) 0) = wire
    at hhex hbytes ⊢
  have hpayload : payload (bytesOf wire) = payload (utf8Bytes c) := by
    rw [hbytes, payload_padded]
  by_cases hempty : payload (bytesOf wire) = []
  · -- nothing is spelled, and forty digits are not stored
    have hself : currencyToString wire = wire := by
      have hunits := hhex.codeUnits_eq
      have hout : chars (payload (bytesOf wire)) = "" := by
        rw [hempty]
        rfl
      unfold currencyToString
      rw [if_neg (by omega)]
      exact (if_pos hhex).trans (if_pos hout)
    rw [hself]
    constructor
    · intro heq
      have := hhex.codeUnits_eq
      rw [heq] at this
      omega
    · rintro (h3 | hascii)
      · exact absurd h3 hthree
      · rw [hpayload, utf8Bytes_ascii (fun ch hch => (hascii ch hch).2), payload_self (by
          intro b hb
          obtain ⟨ch, hch, rfl⟩ := List.mem_map.mp hb
          exact (hascii ch hch).1.ne')] at hempty
        exact absurd (String.toList_inj.mp (List.map_eq_nil_iff.mp hempty)) hne
  rw [hhex.currencyToString_eq hempty, hpayload]
  constructor
  · intro hread
    have hcodes := codes_chars (hpayload ▸ hhex.payload_lt)
    rw [hread] at hcodes
    have hnonzero : ∀ ch ∈ c.toList, ch.toNat ≠ 0 := fun ch hch =>
      payload_nonzero ch.toNat (hcodes ▸ List.mem_map_of_mem hch)
    rw [payload_self (utf8Bytes_nonzero hnonzero)] at hcodes
    have hascii := ascii_of_length (s := c)
      (by rw [← hcodes, List.length_map, String.length_toList])
    exact Or.inr (fun ch hch => ⟨Nat.pos_of_ne_zero (hnonzero ch hch), hascii ch hch⟩)
  · rintro (h3 | hascii)
    · exact absurd h3 hthree
    · rw [payload_self (utf8Bytes_nonzero (fun ch hch => (hascii ch hch).1.ne')),
        utf8Bytes_ascii (fun ch hch => (hascii ch hch).2), chars_codes]

/-! ## Trust lines and obligations -/

/-- Every trust line matched with a stored code is denominated in `w`. -/
def MatchesOnly (w c : String) : Prop :=
  ∀ (fields : Fields) (line issuer : String),
    fields.balance.bind (·.currency) = some line → Carried line →
    (holderInfo fields issuer c).isSome → SameCode line w

/-- A trust line between an issuer and a holder. -/
def trustLine (currency issuer holder : String) : Fields where
  balance := some { currency := some currency }
  lowLimit := some { issuer := some issuer }
  highLimit := some { issuer := some holder }

/-- A trust line is matched by its readable code. -/
theorem matchesOnly_iff {w c : String} (hc : c = currencyToString w) :
    MatchesOnly w c ↔
      ∀ w', Carried w' → currencyToString w' = currencyToString w → SameCode w' w := by
  subst hc
  constructor
  · intro h w' hw' hread
    refine h (trustLine w' "rIssuer" "rAlice") w' "rIssuer" rfl hw' ?_
    have hcurrency : balanceCurrency (trustLine w' "rIssuer" "rAlice")
        = some (currencyToString w) := congrArg some hread
    unfold holderInfo
    rw [if_neg (not_not.mpr hcurrency)]
    rfl
  · intro h fields line issuer hline hcarried hmatch
    have hcurrency : balanceCurrency fields = some (currencyToString w) := by
      by_contra hne
      unfold holderInfo at hmatch
      rw [if_pos hne] at hmatch
      exact Bool.false_ne_true hmatch
    unfold balanceCurrency at hcurrency
    rw [hline] at hcurrency
    exact h line hcarried (Option.some.inj hcurrency)

/-- The obligations of an answer are keyed by the wire form of the stored codes. -/
theorem obligation_key {db : Archive} {req : GatewayRequest} {answer : GatewayAnswer}
    (h : handleGatewayBalances db req = .ok answer) {o : Obligation}
    (ho : o ∈ answer.obligations) :
    ∃ i ∈ gatewayIssuances db answer.account,
      o.currency = currencyToWire (i.currency.getD "") := by
  have hfold : ∀ (hotwallets : List String) (account : String) (ledger : ℕ)
      (l : List IssuanceRow) (a : GatewayAnswer),
      o ∈ (l.foldl (addIssuance db account hotwallets ledger) a).obligations →
      o ∈ a.obligations ∨ ∃ i ∈ l, o.currency = currencyToWire (i.currency.getD "") := by
    intro hotwallets account ledger l
    induction l with
    | nil => exact fun _ ho => Or.inl ho
    | cons i l ih =>
        intro a ho
        rcases ih _ ho with ho | ⟨j, hj, hkey⟩
        · unfold addIssuance at ho
          by_cases hzero : obligation db account hotwallets i.id ledger = 0
          · simp only [if_pos hzero] at ho
            exact Or.inl ho
          · simp only [if_neg hzero] at ho
            rcases Table.mem_upsert.mp ho with ⟨ho, -⟩ | ⟨old, -, hkey, rfl⟩ | ⟨rfl, -⟩
            · exact Or.inl ho
            · exact Or.inr ⟨i, List.mem_cons_self, hkey⟩
            · exact Or.inr ⟨i, List.mem_cons_self, rfl⟩
        · exact Or.inr ⟨j, List.mem_cons_of_mem i hj, hkey⟩
  obtain ⟨account, hotwallets, ledger, -, -, -, hanswer⟩ := handleGatewayBalances_ok h
  have haccount : answer.account = account := by
    rw [hanswer]
    exact (foldl_addIssuance_fields db account hotwallets ledger _ _).1
  rw [hanswer] at ho
  rw [haccount]
  rcases hfold hotwallets account ledger _ _ ho with hnone | hkey
  · exact absurd hnone (Table.not_mem_empty o)
  · exact hkey

/-- **WHICH CURRENCY CODES ARE NOT CONFLATED**: no other code of the ledger, and no
    trust line of another code, is read as `w` if and only if `w` has forty digits
    and no zero among its first nineteen bytes; registered, it is written back as
    itself in upper case if and only if it is standard without lower case letters
    or readable; a stored code comes back from its wire form if and only if it has
    three characters or is ASCII without a zero; and obligations are keyed by the
    wire forms of stored codes. -/
theorem currency_codes_kept_apart {w : String} (hw : Carried w) :
    ((∀ w', Carried w' → currencyToString w' = currencyToString w → SameCode w' w) ↔
        Nonstandard w ∧ ∀ b ∈ (bytesOf w).take 19, b ≠ 0)
      ∧ (∀ c, normalizeCurrency w = .ok c →
          (MatchesOnly w c ↔ Nonstandard w ∧ ∀ b ∈ (bytesOf w).take 19, b ≠ 0)
          ∧ (currencyToWire c = w.toUpper ↔
              (Standard w ∧ w.toUpper = w) ∨ (Nonstandard w ∧ Readable (bytesOf w))))
      ∧ (∀ input c, normalizeCurrency input = .ok c →
          (currencyToString (currencyToWire c) = c ↔
            codeUnits c = 3 ∨ ∀ ch ∈ c.toList, 0 < ch.toNat ∧ ch.toNat < 128))
      ∧ (∀ db req answer, handleGatewayBalances db req = .ok answer →
          ∀ o ∈ answer.obligations, ∃ i ∈ gatewayIssuances db answer.account,
            o.currency = currencyToWire (i.currency.getD "")) := by
  refine ⟨conflates_no_other hw, fun c hc => ⟨?_, wire_of_registered hw hc⟩,
    fun _ _ h => stored_of_wire h, fun _ _ _ h _ ho => obligation_key h ho⟩
  rw [matchesOnly_iff (hw.stored hc)]
  exact conflates_no_other hw

/-- The code of `TOKEN` is written back as itself, but not read alone. -/
theorem currency_codes_kept_apart_token :
    currencyToWire "TOKEN" = "544F4B454E000000000000000000000000000000"
      ∧ ¬ MatchesOnly "544F4B454E000000000000000000000000000000" "TOKEN" := by
  have hw : Carried "544F4B454E000000000000000000000000000000" := by decide +kernel
  have hc : normalizeCurrency "544F4B454E000000000000000000000000000000" = .ok "TOKEN" := by
    decide +kernel
  obtain ⟨hmatch, hwire⟩ := (currency_codes_kept_apart hw).2.1 "TOKEN" hc
  refine ⟨hwire.mpr (Or.inr ⟨by decide +kernel, ?_⟩) |>.trans (by decide +kernel), ?_⟩
  · exact ⟨by decide +kernel, by decide +kernel, by decide +kernel⟩
  · exact fun h => absurd (hmatch.mp h).2 (by decide +kernel)

/-- The standard code `USD` and the code of forty digits that spells it are both
    stored as `USD`, and the second is written back as the first. -/
theorem usd_conflated :
    Carried "USD" ∧ Carried "5553440000000000000000000000000000000000"
      ∧ ¬ SameCode "5553440000000000000000000000000000000000" "USD"
      ∧ currencyToString "5553440000000000000000000000000000000000" = currencyToString "USD"
      ∧ normalizeCurrency "5553440000000000000000000000000000000000" = .ok "USD"
      ∧ normalizeCurrency "USD" = .ok "USD"
      ∧ currencyToWire "USD" ≠ "5553440000000000000000000000000000000000" := by
  decide +kernel

end RegistrarCurrency
