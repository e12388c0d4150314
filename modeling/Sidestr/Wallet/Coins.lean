/-
# Amounts in coins

A payment request's amount (`bip21.rs`) is a decimal number of coins. It is read
exactly: digits with at most one dot and at most eight decimals, from one sat to
21 million coins, however long the digits are (`readAmount_iff`), and an amount that
is written is read back (`readAmount_satsToCoins`).

Key definitions: `coinsToSats`, `satsToCoins`, `NamesSats`.
Key theorems: `coinsToSats_eq_ok`, `coinsToSats_ne_panic`, `readAmount_iff`,
`satsToCoins_names`.
-/
import Sidestr.Lib.Outcome
import Sidestr.Lib.Word
import Mathlib.Data.List.DropRight
import Mathlib.Tactic.Ring

namespace Sidestr

namespace Wallet

/-- A text, by its characters. -/
abbrev Text := List Char

inductive RequestError
  | noAddress
  | brokenEscape
  | amountTwice
  | notCoins (written : Text)
  | tooManyDecimals
  | tooLarge
  | zero
  | required (key : Text)
  | notAnAddress (address : Text)
  | wordsTooLong (field : Text) (len : ℕ)
  deriving DecidableEq

def satsPerCoin : ℕ := 100000000

/-- 21 million coins. -/
def maxSats : ℕ := 21000000 * satsPerCoin

/-! ### Texts -/

/-- What is before the first `c` and after it. -/
def splitOnceChar (c : Char) : Text → Option (Text × Text)
  | [] => none
  | x :: s => if x = c then some ([], s) else (splitOnceChar c s).map fun p => (x :: p.1, p.2)

theorem splitOnceChar_eq_some {c : Char} : ∀ {s a b : Text}, splitOnceChar c s = some (a, b) ↔
    s = a ++ c :: b ∧ c ∉ a
  | [], a, b => by simp [splitOnceChar]
  | x :: s, a, b => by
    unfold splitOnceChar
    split_ifs with hx
    · subst hx
      constructor
      · intro h
        cases h
        exact ⟨rfl, List.not_mem_nil⟩
      · rintro ⟨h, hnot⟩
        cases a with
        | nil =>
          cases h
          rfl
        | cons y a =>
          cases h
          exact absurd List.mem_cons_self hnot
    · constructor
      · intro h
        obtain ⟨⟨a', b'⟩, hs, heq⟩ := Option.map_eq_some_iff.mp h
        cases heq
        obtain ⟨rfl, hnot⟩ := splitOnceChar_eq_some.mp hs
        exact ⟨rfl, fun hmem => (List.mem_cons.mp hmem).elim (fun h => hx h.symm) hnot⟩
      · rintro ⟨h, hnot⟩
        cases a with
        | nil =>
          cases h
          exact absurd rfl hx
        | cons y a =>
          rw [List.cons_append, List.cons.injEq] at h
          have hs := splitOnceChar_eq_some.mpr ⟨h.2, fun hmem => hnot (List.mem_cons_of_mem _ hmem)⟩
          rw [hs, h.1]
          rfl

theorem splitOnceChar_eq_none {c : Char} : ∀ {s : Text}, splitOnceChar c s = none ↔ c ∉ s
  | [] => by simp [splitOnceChar]
  | x :: s => by
    unfold splitOnceChar
    split_ifs with hx
    · simp [hx]
    · rw [Option.map_eq_none_iff, splitOnceChar_eq_none, List.mem_cons, not_or]
      exact ⟨fun h => ⟨fun hc => hx hc.symm, h⟩, And.right⟩

/-- The UTF-16 code units of a text. -/
def utf16Len (s : Text) : ℕ := (s.map fun c => if c.toNat < 0x10000 then 1 else 2).sum

/-- The characters that fit in what is left. -/
def capUtf16 : Text → ℕ → Text
  | [], _ => []
  | c :: s, max =>
    let n := if c.toNat < 0x10000 then 1 else 2
    if max < n then [] else c :: capUtf16 s (max - n)

theorem capUtf16_length : ∀ (s : Text) (max : ℕ), utf16Len (capUtf16 s max) ≤ max
  | [], _ => Nat.zero_le _
  | c :: s, max => by
    rw [capUtf16]
    have ih := capUtf16_length s (max - if c.toNat < 0x10000 then 1 else 2)
    split_ifs with hc hmax hmax
    · exact Nat.zero_le _
    · rw [if_pos hc] at ih
      unfold utf16Len at ih ⊢
      rw [List.map_cons, List.sum_cons, if_pos hc]
      omega
    · exact Nat.zero_le _
    · rw [if_neg hc] at ih
      unfold utf16Len at ih ⊢
      rw [List.map_cons, List.sum_cons, if_neg hc]
      omega

/-- A text that fits is kept whole. -/
theorem capUtf16_fits : ∀ {s : Text} {max : ℕ}, utf16Len s ≤ max → capUtf16 s max = s
  | [], _, _ => rfl
  | c :: s, max, h => by
    unfold utf16Len at h
    rw [List.map_cons, List.sum_cons] at h
    rw [capUtf16]
    rw [if_neg (by omega), capUtf16_fits]
    unfold utf16Len
    omega

/-! ### Reading -/

/-- One more digit of the whole coins. -/
def coinsStep (coins : ℕ) (d : Char) : Res RequestError ℕ :=
  Res.okOr .tooLarge ((((if coins * 10 ≤ Word.maxVal 64 then some (coins * 10) else none).bind
    fun c => Word.checkedAdd 64 c (d.toNat - '0'.toNat)).filter
      fun c => decide (c ≤ maxSats / satsPerCoin)))

/-- A number of 64 bits. -/
def parseU64 (s : Text) : Option ℕ :=
  if s ≠ [] ∧ s.all Char.isDigit = true ∧ Nat.ofDigitChars 10 s 0 ≤ Word.maxVal 64 then
    some (Nat.ofDigitChars 10 s 0)
  else none

def coinsToSats (val : Text) : Res RequestError ℕ := do
  let (int, frac) := (splitOnceChar '.' val).getD (val, [])
  Res.refuseIf (!int.all Char.isDigit || !frac.all Char.isDigit || (int.isEmpty && frac.isEmpty))
    (.notCoins (capUtf16 val 40))
  Res.refuseIf (decide (8 < frac.length)) .tooManyDecimals
  let coins ← Res.foldlM coinsStep 0 int
  let fracSats := (parseU64 (frac ++ List.replicate (8 - frac.length) '0')).getD 0
  -- Arithmetic that does not fit 64 bits would panic.
  let sats ← Res.expect (Word.checkedAdd 64 (coins * satsPerCoin) fracSats)
  Res.refuseIf (decide (maxSats < sats)) .tooLarge
  .ok sats

/-- An amount of a request: not zero. -/
def readAmount (val : Text) : Res RequestError ℕ := do
  let sats ← coinsToSats val
  Res.refuseIf (sats == 0) .zero
  .ok sats

/-- Digits with at most one dot and at most eight decimals, as a number of sats. -/
structure DecimalSats (int frac : Text) (sats : ℕ) : Prop where
  whole : int.all Char.isDigit = true
  decimals : frac.all Char.isDigit = true
  digits : int ≠ [] ∨ frac ≠ []
  short : frac.length ≤ 8
  value : sats = Nat.ofDigitChars 10 int 0 * satsPerCoin +
    Nat.ofDigitChars 10 frac 0 * 10 ^ (8 - frac.length)

/-- The text names an amount a request may ask for. -/
def NamesSats (val : Text) (sats : ℕ) : Prop :=
  (∃ int frac, ((val = int ++ '.' :: frac) ∨ (val = int ∧ frac = [])) ∧ DecimalSats int frac sats) ∧
    1 ≤ sats ∧ sats ≤ maxSats

/-! ### What is read -/

theorem digit_le {d : Char} (h : d.isDigit = true) : d.toNat - '0'.toNat ≤ 9 := by
  have h9 : d.toNat ≤ '9'.toNat := (Char.isDigit_iff_toNat.mp h).2
  have : '9'.toNat = '0'.toNat + 9 := rfl
  omega

theorem maxVal_64 : Word.maxVal 64 = 18446744073709551615 := rfl

theorem ofDigitChars_le {s : Text} (init : ℕ) : init ≤ Nat.ofDigitChars 10 s init := by
  rw [Nat.ofDigitChars_eq_ofDigitChars_zero]
  have := Nat.le_mul_of_pos_left init (Nat.pow_pos (n := s.length) (show 0 < 10 by decide))
  omega

/-- Digits are below the power of their count. -/
theorem ofDigitChars_lt : ∀ {s : Text}, s.all Char.isDigit = true →
    Nat.ofDigitChars 10 s 0 < 10 ^ s.length
  | [], _ => by simp
  | d :: s, h => by
    rw [List.all_cons, Bool.and_eq_true] at h
    have ih := ofDigitChars_lt h.2
    have hd := digit_le h.1
    rw [Nat.ofDigitChars_cons, Nat.ofDigitChars_eq_ofDigitChars_zero, List.length_cons, pow_succ]
    have : 10 ^ s.length * (10 * 0 + (d.toNat - '0'.toNat)) ≤ 10 ^ s.length * 9 :=
      Nat.mul_le_mul_left _ (by omega)
    omega

theorem coinsStep_eq {coins : ℕ} {d : Char} (hc : coins ≤ maxSats / satsPerCoin)
    (hd : d.isDigit = true) : coinsStep coins d =
      if 10 * coins + (d.toNat - '0'.toNat) ≤ maxSats / satsPerCoin then
        .ok (10 * coins + (d.toNat - '0'.toNat))
      else .err .tooLarge := by
  have h9 := digit_le hd
  have hmax : maxSats / satsPerCoin = 21000000 := rfl
  rw [hmax] at hc ⊢
  unfold coinsStep Word.checkedAdd
  rw [maxVal_64, if_pos (by omega), Option.bind_some, if_pos (by omega), hmax, Nat.mul_comm 10]
  split_ifs with hle
  · rw [Option.filter_some_pos (by exact decide_eq_true hle)]
    rfl
  · rw [Option.filter_some_neg (by simpa using hle)]
    rfl

/-- The whole coins are their digits', as far as they are few enough. -/
theorem foldlM_coinsStep : ∀ {int : Text} {coins : ℕ}, coins ≤ maxSats / satsPerCoin →
    int.all Char.isDigit = true → Res.foldlM coinsStep coins int =
      if Nat.ofDigitChars 10 int coins ≤ maxSats / satsPerCoin then
        .ok (Nat.ofDigitChars 10 int coins)
      else .err .tooLarge
  | [], coins, hc, _ => by
    rw [Nat.ofDigitChars_nil, if_pos hc]
    rfl
  | d :: int, coins, hc, hint => by
    rw [List.all_cons, Bool.and_eq_true] at hint
    rw [Res.foldlM_cons, coinsStep_eq hc hint.1, Nat.ofDigitChars_cons]
    split_ifs with hstep hall hall
    · rw [Res.ok_bind, foldlM_coinsStep hstep hint.2, if_pos hall]
    · rw [Res.ok_bind, foldlM_coinsStep hstep hint.2, if_neg hall]
    · exact absurd ((ofDigitChars_le _).trans hall) hstep
    · rfl

/-- The decimals, padded to eight, are a number below a coin. -/
theorem parseU64_padded {frac : Text} (hdigits : frac.all Char.isDigit = true)
    (hshort : frac.length ≤ 8) :
    (parseU64 (frac ++ List.replicate (8 - frac.length) '0')).getD 0 =
      Nat.ofDigitChars 10 frac 0 * 10 ^ (8 - frac.length) ∧
      Nat.ofDigitChars 10 frac 0 * 10 ^ (8 - frac.length) < satsPerCoin := by
  have hvalue : Nat.ofDigitChars 10 (frac ++ List.replicate (8 - frac.length) '0') 0 =
      Nat.ofDigitChars 10 frac 0 * 10 ^ (8 - frac.length) := by
    rw [Nat.ofDigitChars_append, Nat.ofDigitChars_replicate_zero, Nat.mul_comm]
  have hlen : (frac ++ List.replicate (8 - frac.length) '0').length = 8 := by
    rw [List.length_append, List.length_replicate]
    omega
  have hall : (frac ++ List.replicate (8 - frac.length) '0').all Char.isDigit = true := by
    rw [List.all_append, hdigits, Bool.true_and, List.all_replicate]
    split_ifs
    · rfl
    · rfl
  have hlt := ofDigitChars_lt hall
  rw [hlen, hvalue] at hlt
  refine ⟨?_, hlt⟩
  unfold parseU64
  rw [if_pos, hvalue]
  · rfl
  · refine ⟨fun hnil => ?_, hall, ?_⟩
    · rw [hnil] at hlen
      cases hlen
    · rw [hvalue, maxVal_64]
      omega

/-- An amount's text with a dot or without. -/
theorem splitOnceChar_dot {val int frac : Text} (hint : int.all Char.isDigit = true) :
    (splitOnceChar '.' val).getD (val, []) = (int, frac) ↔
      val = int ++ '.' :: frac ∨ (val = int ∧ frac = []) := by
  have hdot : '.' ∉ int := fun hmem => absurd (List.all_eq_true.mp hint _ hmem) (by decide)
  cases h : splitOnceChar '.' val with
  | none =>
    rw [splitOnceChar_eq_none] at h
    rw [Option.getD_none, Prod.mk.injEq]
    constructor
    · rintro ⟨rfl, rfl⟩
      exact .inr ⟨rfl, rfl⟩
    · rintro (rfl | ⟨rfl, rfl⟩)
      · exact absurd (List.mem_append_right _ List.mem_cons_self) h
      · exact ⟨rfl, rfl⟩
  | some p =>
    obtain ⟨a, b⟩ := p
    obtain ⟨hval, -⟩ := splitOnceChar_eq_some.mp h
    rw [Option.getD_some]
    constructor
    · intro heq
      cases heq
      exact .inl hval
    · rintro (hdotted | ⟨rfl, -⟩)
      · rw [splitOnceChar_eq_some.mpr ⟨hdotted, hdot⟩, Option.some.injEq] at h
        exact h.symm
      · exact absurd (hval ▸ List.mem_append_right _ List.mem_cons_self) hdot

theorem expect_eq_ok {ε α : Type} {o : Option α} {a : α} :
    (Res.expect o : Res ε α) = .ok a ↔ o = some a := by
  cases o with
  | none => simp
  | some b => simp

/-- What is read of the two halves. -/
theorem coinsToSats_halves {val int frac : Text}
    (hsplit : (splitOnceChar '.' val).getD (val, []) = (int, frac)) (sats : ℕ) :
    coinsToSats val = .ok sats ↔ DecimalSats int frac sats ∧ sats ≤ maxSats := by
  have hcoins : maxSats / satsPerCoin * satsPerCoin = maxSats := rfl
  constructor
  · intro h
    unfold coinsToSats at h
    rw [hsplit] at h
    obtain ⟨_, hshape, h⟩ := Res.bind_eq_ok.mp h
    obtain ⟨_, hshort, h⟩ := Res.bind_eq_ok.mp h
    obtain ⟨coins, hloop, h⟩ := Res.bind_eq_ok.mp h
    dsimp only at h
    obtain ⟨total, htotal, h⟩ := Res.bind_eq_ok.mp h
    obtain ⟨_, hmax, h⟩ := Res.bind_eq_ok.mp h
    rw [Res.refuseIf_eq_ok, Bool.or_eq_false_iff, Bool.or_eq_false_iff, Bool.not_eq_false',
      Bool.not_eq_false', Bool.and_eq_false_iff, List.isEmpty_eq_false_iff,
      List.isEmpty_eq_false_iff] at hshape
    rw [Res.refuseIf_eq_ok, decide_eq_false_iff_not] at hshort hmax
    obtain ⟨⟨hint, hfrac⟩, hsome⟩ := hshape
    rw [foldlM_coinsStep (Nat.zero_le _) hint] at hloop
    split_ifs at hloop with hfew
    rw [Res.ok.injEq] at hloop h
    obtain ⟨hpad, hlt⟩ := parseU64_padded hfrac (by omega)
    rw [hpad, expect_eq_ok, Word.checkedAdd_eq_some, ← hloop] at htotal
    subst h
    exact ⟨⟨hint, hfrac, hsome, by omega, htotal.1⟩, by omega⟩
  · rintro ⟨⟨hint, hfrac, hsome, hshort, hvalue⟩, hmax⟩
    obtain ⟨hpad, hlt⟩ := parseU64_padded hfrac hshort
    have hfew : Nat.ofDigitChars 10 int 0 ≤ maxSats / satsPerCoin := by
      rw [Nat.le_div_iff_mul_le (by decide)]
      omega
    have hfits : Word.checkedAdd 64 (Nat.ofDigitChars 10 int 0 * satsPerCoin)
        (Nat.ofDigitChars 10 frac 0 * 10 ^ (8 - frac.length)) = some sats := by
      rw [Word.checkedAdd_eq_some]
      refine ⟨hvalue, ?_⟩
      rw [← hvalue]
      exact hmax.trans (by decide)
    have hshape : (!int.all Char.isDigit || !frac.all Char.isDigit ||
        (int.isEmpty && frac.isEmpty)) = false := by
      rw [hint, hfrac, Bool.not_true, Bool.false_or, Bool.false_or, Bool.and_eq_false_iff,
        List.isEmpty_eq_false_iff, List.isEmpty_eq_false_iff]
      exact hsome
    unfold coinsToSats
    rw [hsplit]
    dsimp only
    rw [hshape, decide_eq_false (by omega : ¬ 8 < frac.length), Res.refuseIf_false, Res.ok_bind,
      Res.refuseIf_false, Res.ok_bind, foldlM_coinsStep (Nat.zero_le _) hint, if_pos hfew,
      Res.ok_bind, hpad, hfits, Res.expect_some, Res.ok_bind,
      decide_eq_false (by omega : ¬ maxSats < sats), Res.refuseIf_false, Res.ok_bind]

/-- **An amount is read exactly.** -/
theorem coinsToSats_eq_ok {val : Text} {sats : ℕ} : coinsToSats val = .ok sats ↔
    (∃ int frac, (val = int ++ '.' :: frac ∨ (val = int ∧ frac = [])) ∧
      DecimalSats int frac sats) ∧ sats ≤ maxSats := by
  constructor
  · intro h
    obtain ⟨⟨int, frac⟩, hsplit⟩ : ∃ p, (splitOnceChar '.' val).getD (val, []) = p := ⟨_, rfl⟩
    obtain ⟨hdecimal, hmax⟩ := (coinsToSats_halves hsplit sats).mp h
    exact ⟨⟨int, frac, (splitOnceChar_dot hdecimal.whole).mp hsplit, hdecimal⟩, hmax⟩
  · rintro ⟨⟨int, frac, hval, hdecimal⟩, hmax⟩
    exact (coinsToSats_halves ((splitOnceChar_dot hdecimal.whole).mpr hval) sats).mpr ⟨hdecimal, hmax⟩

/-- Nothing overflows, whatever is written. -/
theorem coinsToSats_ne_panic (val : Text) : coinsToSats val ≠ .panic := by
  obtain ⟨⟨int, frac⟩, hsplit⟩ : ∃ p, (splitOnceChar '.' val).getD (val, []) = p := ⟨_, rfl⟩
  unfold coinsToSats
  rw [hsplit]
  refine Res.bind_ne_panic (Res.refuseIf_ne_panic _ _) fun _ hshape => ?_
  refine Res.bind_ne_panic (Res.refuseIf_ne_panic _ _) fun _ hshort => ?_
  rw [Res.refuseIf_eq_ok, Bool.or_eq_false_iff, Bool.or_eq_false_iff, Bool.not_eq_false',
    Bool.not_eq_false'] at hshape
  rw [Res.refuseIf_eq_ok, decide_eq_false_iff_not] at hshort
  rw [foldlM_coinsStep (Nat.zero_le _) hshape.1.1]
  split_ifs with hfew
  · obtain ⟨hpad, hlt⟩ := parseU64_padded hshape.1.2 (by omega)
    have hle : Nat.ofDigitChars 10 int 0 * satsPerCoin ≤ maxSats := by
      rwa [Nat.le_div_iff_mul_le (by decide)] at hfew
    have hroom : maxSats + satsPerCoin ≤ Word.maxVal 64 := by decide
    rw [Res.ok_bind, hpad]
    dsimp only
    rw [Word.checkedAdd_eq_some.mpr ⟨rfl, by omega⟩, Res.expect_some, Res.ok_bind]
    refine Res.bind_ne_panic (Res.refuseIf_ne_panic _ _) fun _ _ h => ?_
    cases h
  · intro h
    cases h

/-- **A request's amount is read exactly when it names one sat or more, of 21 million
coins at the most.** -/
theorem readAmount_iff {val : Text} {sats : ℕ} : readAmount val = .ok sats ↔
    NamesSats val sats := by
  unfold readAmount NamesSats
  constructor
  · intro h
    obtain ⟨n, hn, h⟩ := Res.bind_eq_ok.mp h
    obtain ⟨_, hzero, h⟩ := Res.bind_eq_ok.mp h
    rw [Res.refuseIf_eq_ok, beq_eq_false_iff_ne] at hzero
    rw [Res.ok.injEq] at h
    subst h
    obtain ⟨hshape, hmax⟩ := coinsToSats_eq_ok.mp hn
    exact ⟨hshape, Nat.pos_of_ne_zero hzero, hmax⟩
  · rintro ⟨hshape, hpos, hmax⟩
    have hne : (sats == 0) = false := beq_eq_false_iff_ne.mpr (by omega)
    rw [coinsToSats_eq_ok.mpr ⟨hshape, hmax⟩, Res.ok_bind, hne]
    rfl

/-! ### Writing -/

/-- A number's digits, at least eight. -/
def eightDigits (n : ℕ) : Text :=
  List.replicate (8 - (Nat.toDigits 10 n).length) '0' ++ Nat.toDigits 10 n

def satsToCoins (sats : ℕ) : Text :=
  if sats % satsPerCoin = 0 then Nat.toDigits 10 (sats / satsPerCoin)
  else Nat.toDigits 10 (sats / satsPerCoin) ++
    '.' :: (eightDigits (sats % satsPerCoin)).rdropWhile (· == '0')

theorem toDigits_digits (n : ℕ) : (Nat.toDigits 10 n).all Char.isDigit = true :=
  List.all_eq_true.mpr fun _ hc => Nat.isDigit_of_mem_toDigits (by decide) (by decide) hc

theorem eightDigits_digits (n : ℕ) : (eightDigits n).all Char.isDigit = true := by
  unfold eightDigits
  rw [List.all_append, toDigits_digits, Bool.and_true, List.all_replicate]
  split_ifs
  · rfl
  · rfl

theorem eightDigits_value (n : ℕ) : Nat.ofDigitChars 10 (eightDigits n) 0 = n := by
  unfold eightDigits
  rw [Nat.ofDigitChars_append, Nat.ofDigitChars_replicate_zero, Nat.mul_zero,
    Nat.ofDigitChars_toDigits (by decide) (by decide)]

theorem eightDigits_length {n : ℕ} (h : n < satsPerCoin) : (eightDigits n).length = 8 := by
  have := (Nat.length_toDigits_le_iff (b := 10) (k := 8) (by decide) (by decide)).mpr h
  unfold eightDigits
  rw [List.length_append, List.length_replicate]
  omega

/-- The decimals without trailing zeros have the value of all eight. -/
theorem trimmed_value {n : ℕ} (h : n < satsPerCoin) :
    let frac := (eightDigits n).rdropWhile (· == '0')
    frac.all Char.isDigit = true ∧ frac.length ≤ 8 ∧
      Nat.ofDigitChars 10 frac 0 * 10 ^ (8 - frac.length) = n := by
  intro frac
  have hsplit : frac ++ (eightDigits n).rtakeWhile (· == '0') = eightDigits n :=
    List.rdropWhile_append_rtakeWhile
  have hzeros : (eightDigits n).rtakeWhile (· == '0') =
      List.replicate ((eightDigits n).rtakeWhile (· == '0')).length '0' :=
    List.eq_replicate_of_mem fun c hc => by simpa using List.mem_rtakeWhile_imp hc
  have hlen := congrArg List.length hsplit
  rw [List.length_append, eightDigits_length h] at hlen
  have hdigits := eightDigits_digits n
  rw [← hsplit, List.all_append, Bool.and_eq_true] at hdigits
  refine ⟨hdigits.1, by omega, ?_⟩
  have hvalue := eightDigits_value n
  rw [← hsplit, Nat.ofDigitChars_append, hzeros, Nat.ofDigitChars_replicate_zero,
    Nat.mul_comm] at hvalue
  rw [show 8 - frac.length = ((eightDigits n).rtakeWhile (· == '0')).length by omega]
  exact hvalue

/-- **What is written names the amount.** -/
theorem satsToCoins_names {sats : ℕ} (hpos : 1 ≤ sats) (hmax : sats ≤ maxSats) :
    NamesSats (satsToCoins sats) sats := by
  have hdivmod : sats / satsPerCoin * satsPerCoin + sats % satsPerCoin = sats :=
    Nat.div_add_mod' sats satsPerCoin
  have hwhole : Nat.ofDigitChars 10 (Nat.toDigits 10 (sats / satsPerCoin)) 0 =
      sats / satsPerCoin := Nat.ofDigitChars_toDigits (by decide) (by decide)
  refine ⟨?_, hpos, hmax⟩
  unfold satsToCoins
  split_ifs with hzero
  · refine ⟨_, [], .inr ⟨rfl, rfl⟩, toDigits_digits _, rfl, .inl Nat.toDigits_ne_nil,
      Nat.zero_le _, ?_⟩
    rw [hwhole, Nat.ofDigitChars_nil, Nat.zero_mul]
    omega
  · obtain ⟨hdigits, hshort, hvalue⟩ :=
      trimmed_value (Nat.mod_lt sats (show 0 < satsPerCoin by decide))
    refine ⟨_, _, .inl rfl, toDigits_digits _, hdigits, .inl Nat.toDigits_ne_nil, hshort, ?_⟩
    rw [hwhole, hvalue]
    exact hdivmod.symm

/-- **An amount that is written is read back.** -/
theorem readAmount_satsToCoins {sats : ℕ} (hpos : 1 ≤ sats) (hmax : sats ≤ maxSats) :
    readAmount (satsToCoins sats) = .ok sats :=
  readAmount_iff.mpr (satsToCoins_names hpos hmax)

end Wallet

end Sidestr
