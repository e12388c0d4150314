/-
# Accounts and amounts

An account is read from a did, a bare x or a Multikey, in any case and with
spaces around it, into `did:nostr:` and 64 lower-case hex digits. An amount is
a number of satoshis up to 21 million coins, written as decimal digits.

Key definitions: `accountOf`, `sats`.
Key theorems: `accountOf_accountOf`, `sats_textOf`.
-/
import Sidestr.Lib.Outcome
import Mathlib.Algebra.GroupWithZero.Nat
import Mathlib.Data.List.DropRight

namespace Sidestr

namespace Teller

abbrev Text := List Char

/-- The errors of accounts and moves. -/
inductive LedgerError
  | account
  | amount
  | name
  | outpoint
  | zeroTransfer
  | insufficient (account : Text) (has wanted : ℕ)
  | withdrawalTooSmall
  deriving DecidableEq

/-- The most satoshis there can be. -/
def maxSats : ℕ := 2100000000000000

/-- ECMAScript's white space and line terminators. -/
def isJsSpace (c : Char) : Bool :=
  c.toNat ∈ [0x9, 0xa, 0xb, 0xc, 0xd, 0x20, 0xa0, 0x1680, 0x2028, 0x2029, 0x202f, 0x205f, 0x3000,
    0xfeff] || (0x2000 ≤ c.toNat && c.toNat ≤ 0x200a)

def jsTrim (s : Text) : Text := (s.dropWhile isJsSpace).rdropWhile isJsSpace

def isLowerHex (c : Char) : Bool :=
  (0x30 ≤ c.toNat && c.toNat ≤ 0x39) || (0x61 ≤ c.toNat && c.toNat ≤ 0x66)

def isHex64 (s : Text) : Bool := s.length == 64 && s.all isLowerHex

/-- The lower case of ASCII letters. The others have none made of an account's
characters alone (the Kelvin sign's is `k`, the dotted capital I's is two
characters), so an identifier with one is refused either way. -/
def toLowercase (s : Text) : Text := s.map Char.toLower

def did : Text := "did:nostr:".toList

/-- The account an identifier names. -/
def accountOf (id : Text) : Res LedgerError Text :=
  let s := toLowercase (jsTrim id)
  let bare := (did.isPrefixOf? s).getD s
  if isHex64 bare then .ok (did ++ bare)
  else
    let multikey := (("fe70102".toList.isPrefixOf? s) <|> ("fe70103".toList.isPrefixOf? s)).filter
      isHex64
    match multikey with
    | some x => .ok (did ++ x)
    | none => .err .account

def checkSats (n : ℕ) : Res LedgerError ℕ :=
  if maxSats < n then .err .amount else .ok n

/-- An amount read from its text. -/
def sats (text : Text) : Res LedgerError ℕ :=
  let t := jsTrim text
  if t.isEmpty || !t.all Char.isDigit then .err .amount
  else
    let digits := t.dropWhile (· == '0')
    if 16 < digits.length then .err .amount
    else checkSats (Nat.ofDigitChars 10 digits 0)

/-- An amount as the ledger writes it. -/
def textOf (n : ℕ) : Text := Nat.toDigits 10 n

/-! ### Accounts read back -/

theorem checkSats_eq_ok {n v : ℕ} : checkSats n = .ok v ↔ n ≤ maxSats ∧ v = n := by
  unfold checkSats
  split
  · simp
    omega
  · rw [Res.ok.injEq]
    omega

theorem isPrefixOf?_append (p b : Text) : p.isPrefixOf? (p ++ b) = some b := by
  induction p with
  | nil => cases b <;> rfl
  | cons c p ih =>
    rw [List.cons_append, List.isPrefixOf?, if_pos (beq_self_eq_true c)]
    exact ih

/-- A character that trimming and lowering leave. -/
def IsPlain (c : Char) : Prop := isJsSpace c = false ∧ c.toLower = c

instance (c : Char) : Decidable (IsPlain c) := inferInstanceAs (Decidable (_ ∧ _))

theorem isPlain_of_lowerHex {c : Char} (h : isLowerHex c = true) : IsPlain c := by
  unfold isLowerHex at h
  simp only [Bool.or_eq_true, Bool.and_eq_true, decide_eq_true_eq] at h
  constructor
  · unfold isJsSpace
    simp only [Bool.or_eq_false_iff, Bool.and_eq_false_iff, decide_eq_false_iff_not,
      List.mem_cons, List.not_mem_nil, or_false]
    omega
  · unfold Char.toLower
    rw [dif_neg]
    rw [ge_iff_le, UInt32.le_iff_toNat_le, UInt32.le_iff_toNat_le]
    change ¬ (65 ≤ c.toNat ∧ c.toNat ≤ 90)
    omega

theorem jsTrim_plain {s : Text} (h : ∀ c ∈ s, IsPlain c) : jsTrim s = s := by
  have hdrop : s.dropWhile isJsSpace = s := by
    cases s with
    | nil => rfl
    | cons c s =>
      rw [List.dropWhile_cons_of_neg]
      rw [(h c List.mem_cons_self).1]
      exact Bool.false_ne_true
  unfold jsTrim
  rw [hdrop, List.rdropWhile_eq_self_iff]
  intro hne
  rw [(h _ (List.getLast_mem hne)).1]
  exact Bool.false_ne_true

theorem toLowercase_plain {s : Text} (h : ∀ c ∈ s, IsPlain c) : toLowercase s = s := by
  unfold toLowercase
  exact (List.map_congr_left fun c hc => (h c hc).2).trans (List.map_id s)

theorem did_plain : ∀ c ∈ did, IsPlain c := by
  have hall : did.all (fun c => decide (IsPlain c)) = true := by decide
  exact fun c hc => of_decide_eq_true (List.all_eq_true.mp hall c hc)

/-- What an identifier names is a did. -/
theorem accountOf_ok {id a : Text} (h : accountOf id = .ok a) :
    ∃ x, isHex64 x = true ∧ a = did ++ x := by
  unfold accountOf at h
  dsimp only at h
  split at h
  · rename_i hhex
    cases h
    exact ⟨_, hhex, rfl⟩
  · split at h
    · rename_i x hx
      cases h
      exact ⟨x, (Option.filter_eq_some_iff.mp hx).2, rfl⟩
    · cases h

/-- An account names itself. -/
theorem accountOf_accountOf {id a : Text} (h : accountOf id = .ok a) : accountOf a = .ok a := by
  obtain ⟨x, hx, rfl⟩ := accountOf_ok h
  have hplain : ∀ c ∈ did ++ x, IsPlain c := by
    intro c hc
    rcases List.mem_append.mp hc with hc | hc
    · exact did_plain c hc
    · unfold isHex64 at hx
      rw [Bool.and_eq_true, List.all_eq_true] at hx
      exact isPlain_of_lowerHex (hx.2 c hc)
  unfold accountOf
  dsimp only
  rw [jsTrim_plain hplain, toLowercase_plain hplain, isPrefixOf?_append, Option.getD_some, if_pos hx]

/-! ### Amounts read back -/

theorem isPlain_of_isDigit {c : Char} (h : c.isDigit = true) : IsPlain c := by
  apply isPlain_of_lowerHex
  unfold Char.isDigit at h
  simp only [Bool.and_eq_true, decide_eq_true_eq, ge_iff_le, UInt32.le_iff_toNat_le] at h
  change 48 ≤ c.toNat ∧ c.toNat ≤ 57 at h
  unfold isLowerHex
  simp only [Bool.or_eq_true, Bool.and_eq_true, decide_eq_true_eq]
  exact .inl h

/-- Leading zeros write nothing. -/
theorem ofDigitChars_dropWhile (l : Text) :
    Nat.ofDigitChars 10 (l.dropWhile (· == '0')) 0 = Nat.ofDigitChars 10 l 0 := by
  induction l with
  | nil => rfl
  | cons c l ih =>
    rw [List.dropWhile_cons]
    split
    · rename_i hc
      rw [beq_iff_eq] at hc
      rw [ih, Nat.ofDigitChars_cons, hc]
      rfl
    · rfl

/-- An amount reads back from its text, when it is an amount. -/
theorem sats_textOf (n : ℕ) : sats (textOf n) = checkSats n := by
  have hdigits : ∀ c ∈ textOf n, c.isDigit = true := fun c hc =>
    Nat.isDigit_of_mem_toDigits (by omega) (by omega) hc
  have hvalue : Nat.ofDigitChars 10 ((textOf n).dropWhile (· == '0')) 0 = n := by
    rw [ofDigitChars_dropWhile]
    exact Nat.ofDigitChars_ten_toDigits
  unfold sats
  dsimp only
  rw [jsTrim_plain fun c hc => isPlain_of_isDigit (hdigits c hc), hvalue, if_neg]
  · split
    · rename_i hlong
      -- an amount has at most sixteen digits
      have hlen : maxSats < n := by
        by_contra hle
        have hshort : (textOf n).length ≤ 16 :=
          (Nat.length_toDigits_le_iff (by omega) (by omega)).mpr (by unfold maxSats at hle; omega)
        have hdrop := (List.dropWhile_sublist (p := (· == '0')) (l := textOf n)).length_le
        omega
      unfold checkSats
      rw [if_pos hlen]
    · rfl
  · rw [Bool.or_eq_true, not_or, List.isEmpty_iff, Bool.not_eq_true, Bool.not_eq_false',
      List.all_eq_true]
    exact ⟨Nat.toDigits_ne_nil, hdigits⟩

end Teller

end Sidestr
