/-
# Payment requests

A payment request (`bip21.rs`) is read from a text and written as one. A request
that was built is read back, and so is one that was read, except where it names
nothing but an address that ends in white space: the text keeps that space before a
`?`, and the writing ends in it, where it is trimmed (`request_reads_back_iff`). An
amount is read exactly (`readField_amount`).

Key definitions: `parse`, `toUri`, `Built`, `Readable`, `LosesSpace`.
Key theorems: `parse_readable`, `parse_toUri`, `parse_toUri_bare`,
`request_reads_back_iff`.
-/
import Sidestr.Wallet.Escape

namespace Sidestr

namespace Wallet

structure PaymentRequest where
  address : Text
  sats : Option ℕ
  label : Text
  message : Text
  deriving DecidableEq

/-- How long words are kept. -/
def maxWords : ℕ := 200

def scheme : Text := ['b', 'i', 't', 'c', 'o', 'i', 'n', ':']

def keyAmount : Text := ['a', 'm', 'o', 'u', 'n', 't']

def keyLabel : Text := ['l', 'a', 'b', 'e', 'l']

def keyMessage : Text := ['m', 'e', 's', 's', 'a', 'g', 'e']

def keyRequired : Text := ['r', 'e', 'q', '-']

/-- What follows the scheme, in any letter case. -/
def stripScheme (text : Text) : Option Text :=
  if (text.take scheme.length).map Char.toLower = scheme then some (text.drop scheme.length)
  else none

/-- The address and the query of a request. -/
def splitRequest (text : Text) : Option (Text × Text) :=
  (stripScheme (jsTrim text)).bind fun rest =>
    if '#' ∈ rest then none else some ((splitOnceChar '?' rest).getD (rest, []))

section

variable [CaseTables]

/-! ### Reading -/

/-- The keys and values of a query. -/
def queryFields (query : Text) : List (Text × Text) :=
  ((query.splitOn '&').filter fun part => !part.isEmpty).map fun part =>
    let p := (splitOnceChar '=' part).getD (part, [])
    (toLowercase p.1, p.2)

/-- One more field of the query. -/
def readField (out : PaymentRequest) (field : Text × Text) : Res RequestError PaymentRequest := do
  let val ← percentDecode field.2
  if field.1 = keyAmount then do
    Res.refuseIf out.sats.isSome .amountTwice
    let sats ← readAmount val
    .ok { out with sats := some sats }
  else if field.1 = keyLabel then .ok { out with label := capUtf16 val maxWords }
  else if field.1 = keyMessage then .ok { out with message := capUtf16 val maxWords }
  else if keyRequired.isPrefixOf field.1 then .err (.required (capUtf16 field.1 40))
  else .ok out

/-- The address that is read: all capitals are read in lower case. -/
def foldAddress (raw : Text) : Text := if raw = toUppercase raw then toLowercase raw else raw

def parse (text : Text) : Res RequestError (Option PaymentRequest) :=
  match splitRequest text with
  | none => .ok none
  | some (raw, query) => do
    Res.refuseIf (foldAddress raw).isEmpty .noAddress
    let out ← Res.foldlM readField ⟨foldAddress raw, none, [], []⟩ (queryFields query)
    .ok (some out)

/-! ### Building -/

/-- A label or message for building: kept whole, or refused. -/
def words (field text : Text) : Res RequestError Text :=
  if maxWords < utf16Len text then .err (.wordsTooLong field (utf16Len text)) else .ok text

/-- `PaymentRequest::new`, over which texts are addresses. -/
def newRequest (isAddress : Text → Bool) (address : Text) : Res RequestError PaymentRequest :=
  if isAddress (trim address) then .ok ⟨toLowercase (trim address), none, [], []⟩
  else .err (.notAnAddress (trim address))

omit [CaseTables] in
def PaymentRequest.withAmount (r : PaymentRequest) (sats : ℕ) : Res RequestError PaymentRequest := do
  Res.refuseIf (sats == 0) .zero
  Res.refuseIf (decide (maxSats < sats)) .tooLarge
  .ok { r with sats := some sats }

omit [CaseTables] in
def PaymentRequest.withLabel (r : PaymentRequest) (label : Text) :
    Res RequestError PaymentRequest := do
  let label ← words keyLabel label
  .ok { r with label := label }

omit [CaseTables] in
def PaymentRequest.withMessage (r : PaymentRequest) (message : Text) :
    Res RequestError PaymentRequest := do
  let message ← words keyMessage message
  .ok { r with message := message }

/-- A request that was built. -/
inductive Built (isAddress : Text → Bool) : PaymentRequest → Prop
  | new {address : Text} {r : PaymentRequest} : newRequest isAddress address = .ok r →
      Built isAddress r
  | amount {r r' : PaymentRequest} {sats : ℕ} : Built isAddress r → r.withAmount sats = .ok r' →
      Built isAddress r'
  | label {r r' : PaymentRequest} {label : Text} : Built isAddress r → r.withLabel label = .ok r' →
      Built isAddress r'
  | message {r r' : PaymentRequest} {message : Text} : Built isAddress r →
      r.withMessage message = .ok r' → Built isAddress r'

/-! ### Writing -/

/-- What a request names beside its address, in order. -/
def PaymentRequest.fields (r : PaymentRequest) : List (Text × Text) :=
  (r.sats.map fun sats => (keyAmount, satsToCoins sats)).toList ++
    (if r.label = [] then [] else [(keyLabel, percentEncode r.label)]) ++
    (if r.message = [] then [] else [(keyMessage, percentEncode r.message)])

/-- Each field after its separator: `sep` first, then `&`. -/
def pushFields : Char → List (Text × Text) → Text
  | _, [] => []
  | sep, (key, val) :: fields => sep :: (key ++ '=' :: val) ++ pushFields '&' fields

def PaymentRequest.toUri (r : PaymentRequest) : Text := scheme ++ r.address ++ pushFields '?' r.fields

/-! ### What is read -/

omit [CaseTables] in
/-- What reading a field does. -/
theorem readField_ok {out r : PaymentRequest} {field : Text × Text}
    (h : readField out field = .ok r) : ∃ val, percentDecode field.2 = .ok val ∧
      ((field.1 = keyAmount ∧ out.sats = none ∧
          ∃ sats, NamesSats val sats ∧ r = { out with sats := some sats }) ∨
        (field.1 = keyLabel ∧ r = { out with label := capUtf16 val maxWords }) ∨
        (field.1 = keyMessage ∧ r = { out with message := capUtf16 val maxWords }) ∨
        (field.1 ≠ keyAmount ∧ field.1 ≠ keyLabel ∧ field.1 ≠ keyMessage ∧ r = out)) := by
  unfold readField at h
  obtain ⟨val, hval, h⟩ := Res.bind_eq_ok.mp h
  refine ⟨val, hval, ?_⟩
  split_ifs at h with hamount hlabel hmessage hrequired
  · obtain ⟨_, honce, h⟩ := Res.bind_eq_ok.mp h
    obtain ⟨sats, hsats, h⟩ := Res.bind_eq_ok.mp h
    rw [Res.refuseIf_eq_ok, Option.isSome_eq_false_iff, Option.isNone_iff_eq_none] at honce
    rw [Res.ok.injEq] at h
    exact .inl ⟨hamount, honce, sats, readAmount_iff.mp hsats, h.symm⟩
  · rw [Res.ok.injEq] at h
    exact .inr (.inl ⟨hlabel, h.symm⟩)
  · rw [Res.ok.injEq] at h
    exact .inr (.inr (.inl ⟨hmessage, h.symm⟩))
  · rw [Res.ok.injEq] at h
    exact .inr (.inr (.inr ⟨hamount, hlabel, hmessage, h.symm⟩))

omit [CaseTables] in
/-- **An amount is read exactly when it is the first and its text names one.** -/
theorem readField_amount {out r : PaymentRequest} {raw : Text} :
    readField out (keyAmount, raw) = .ok r ↔ out.sats = none ∧
      ∃ val sats, percentDecode raw = .ok val ∧ NamesSats val sats ∧
        r = { out with sats := some sats } := by
  constructor
  · intro h
    obtain ⟨val, hval, hcases⟩ := readField_ok h
    rcases hcases with ⟨-, honce, sats, hsats, hr⟩ | ⟨hkey, -⟩ | ⟨hkey, -⟩ | ⟨hkey, -⟩
    · exact ⟨honce, val, sats, hval, hsats, hr⟩
    · exact absurd (show keyAmount = keyLabel from hkey) (by decide)
    · exact absurd (show keyAmount = keyMessage from hkey) (by decide)
    · exact absurd rfl hkey
  · rintro ⟨honce, val, sats, hval, hsats, rfl⟩
    unfold readField
    rw [hval, Res.ok_bind, if_pos rfl, honce, Option.isSome_none, Res.refuseIf_false, Res.ok_bind,
      readAmount_iff.mpr hsats, Res.ok_bind]

/-- What a request that is read or built has. -/
structure Readable (r : PaymentRequest) : Prop where
  nonempty : r.address ≠ []
  question : '?' ∉ r.address
  hash : '#' ∉ r.address
  /-- No capitals are left to fold. -/
  folded : foldAddress r.address = r.address
  sats : ∀ s, r.sats = some s → 1 ≤ s ∧ s ≤ maxSats
  label : utf16Len r.label ≤ maxWords
  message : utf16Len r.message ≤ maxWords

theorem foldAddress_idem (raw : Text) : foldAddress (foldAddress raw) = foldAddress raw := by
  unfold foldAddress
  split_ifs with hupper hlower
  · exact toLowercase_idem raw
  · rfl
  · rfl

theorem foldAddress_plain {raw : Text} {d : Char} (hd : d = '?' ∨ d = '#')
    (h : d ∈ foldAddress raw) : d ∈ raw := by
  unfold foldAddress at h
  split_ifs at h
  · exact toLowercase_plain hd h
  · exact h

theorem endsInSpace_foldAddress {raw : Text} : EndsInSpace (foldAddress raw) ↔ EndsInSpace raw := by
  unfold foldAddress
  split_ifs
  · exact endsInSpace_toLowercase
  · exact Iff.rfl

omit [CaseTables] in
theorem splitRequest_plain {text raw query : Text} (h : splitRequest text = some (raw, query)) :
    '?' ∉ raw ∧ '#' ∉ raw := by
  obtain ⟨rest, -, h⟩ := Option.bind_eq_some_iff.mp h
  split_ifs at h with hhash
  rw [Option.some.injEq] at h
  cases hsplit : splitOnceChar '?' rest with
  | none =>
    rw [hsplit] at h
    cases h
    exact ⟨splitOnceChar_eq_none.mp hsplit, hhash⟩
  | some p =>
    rw [hsplit] at h
    cases h
    obtain ⟨hrest, hnot⟩ := splitOnceChar_eq_some.mp hsplit
    exact ⟨hnot, fun hmem => hhash (hrest ▸ List.mem_append_left _ hmem)⟩

/-- What reading a request does. -/
theorem parse_ok {text : Text} {r : PaymentRequest} (h : parse text = .ok (some r)) :
    ∃ raw query, splitRequest text = some (raw, query) ∧ foldAddress raw ≠ [] ∧
      Res.foldlM readField ⟨foldAddress raw, none, [], []⟩ (queryFields query) = .ok r := by
  unfold parse at h
  split at h
  · cases h
  · rename_i raw query hsplit
    obtain ⟨_, hempty, h⟩ := Res.bind_eq_ok.mp h
    obtain ⟨out, hout, h⟩ := Res.bind_eq_ok.mp h
    rw [Res.refuseIf_eq_ok, List.isEmpty_eq_false_iff] at hempty
    cases h
    exact ⟨raw, query, hsplit, hempty, hout⟩

omit [CaseTables] in
/-- The fields leave the address and keep what they read within its bounds. -/
theorem readFields_bounds {a : Text} {fields : List (Text × Text)} {r : PaymentRequest}
    (h : Res.foldlM readField ⟨a, none, [], []⟩ fields = .ok r) :
    r.address = a ∧ (∀ s, r.sats = some s → 1 ≤ s ∧ s ≤ maxSats) ∧
      utf16Len r.label ≤ maxWords ∧ utf16Len r.message ≤ maxWords := by
  refine Res.foldlM_ok_ind
    (P := fun out : PaymentRequest => out.address = a ∧
      (∀ s, out.sats = some s → 1 ≤ s ∧ s ≤ maxSats) ∧
      utf16Len out.label ≤ maxWords ∧ utf16Len out.message ≤ maxWords) h
    ⟨rfl, fun s hs => (by cases hs), Nat.zero_le _, Nat.zero_le _⟩ ?_
  rintro out field out' - ⟨haddress, hsats, hlabel, hmessage⟩ hstep
  obtain ⟨val, -, hcases⟩ := readField_ok hstep
  rcases hcases with ⟨-, -, sats, hnames, rfl⟩ | ⟨-, rfl⟩ | ⟨-, rfl⟩ | ⟨-, -, -, rfl⟩
  · refine ⟨haddress, fun s hs => ?_, hlabel, hmessage⟩
    cases hs
    exact hnames.2
  · exact ⟨haddress, hsats, capUtf16_length _ _, hmessage⟩
  · exact ⟨haddress, hsats, hlabel, capUtf16_length _ _⟩
  · exact ⟨haddress, hsats, hlabel, hmessage⟩

/-- **What is read is readable.** -/
theorem parse_readable {text : Text} {r : PaymentRequest} (h : parse text = .ok (some r)) :
    Readable r := by
  obtain ⟨raw, query, hsplit, hne, hfields⟩ := parse_ok h
  obtain ⟨haddress, hsats, hlabel, hmessage⟩ := readFields_bounds hfields
  obtain ⟨hquestion, hhash⟩ := splitRequest_plain hsplit
  rw [← haddress] at hne
  refine ⟨hne, ?_, ?_, by rw [haddress, foldAddress_idem], hsats, hlabel, hmessage⟩
  · rw [haddress]
    exact fun hmem => hquestion (foldAddress_plain (.inl rfl) hmem)
  · rw [haddress]
    exact fun hmem => hhash (foldAddress_plain (.inr rfl) hmem)

/-! ### What names nothing -/

/-- The value of the last field with this key, or nothing. -/
def lastValue (key : Text) (fields : List (Text × Text)) : Text :=
  ((fields.filter fun f => f.1 == key).getLast?.map Prod.snd).getD []

omit [CaseTables] in
theorem lastValue_concat (key : Text) (fields : List (Text × Text)) (f : Text × Text) :
    lastValue key (fields ++ [f]) = if f.1 = key then f.2 else lastValue key fields := by
  unfold lastValue
  rw [List.filter_append, List.filter_singleton]
  by_cases hkey : f.1 = key
  · rw [if_pos hkey, beq_iff_eq.mpr hkey, cond_true, List.getLast?_append, List.getLast?_singleton]
    rfl
  · rw [if_neg hkey, beq_eq_false_iff_ne.mpr hkey, cond_false, List.append_nil]

/-- A query without an amount, whose label and message are empty. -/
def NamesNothing (fields : List (Text × Text)) : Prop :=
  (∀ f ∈ fields, f.1 ≠ keyAmount) ∧ lastValue keyLabel fields = [] ∧
    lastValue keyMessage fields = []

/-- No more than an address. -/
def PaymentRequest.Bare (r : PaymentRequest) : Prop := r.sats = none ∧ r.label = [] ∧ r.message = []

omit [CaseTables] in
/-- Words are cut to nothing only where nothing is written. -/
theorem capUtf16_eq_nil {raw val : Text} (h : percentDecode raw = .ok val) :
    capUtf16 val maxWords = [] ↔ raw = [] := by
  rw [← percentDecode_eq_nil h]
  cases val with
  | nil => exact Iff.rfl
  | cons c s =>
    rw [capUtf16, if_neg (by unfold maxWords; split_ifs <;> omega)]
    exact ⟨fun hnil => absurd hnil (List.cons_ne_nil _ _),
      fun hnil => absurd hnil (List.cons_ne_nil _ _)⟩

omit [CaseTables] in
theorem amount_mem_concat {f : Text × Text} {fields : List (Text × Text)} (h : f.1 ≠ keyAmount)
    (raw : Text) : (keyAmount, raw) ∈ fields ++ [f] ↔ (keyAmount, raw) ∈ fields := by
  rw [List.mem_append, List.mem_singleton]
  exact ⟨fun hmem => hmem.elim id fun heq => absurd (heq ▸ rfl) h, .inl⟩

omit [CaseTables] in
theorem no_amount_concat {f : Text × Text} {fields : List (Text × Text)} (h : f.1 ≠ keyAmount) :
    (∀ g ∈ fields ++ [f], g.1 ≠ keyAmount) ↔ ∀ g ∈ fields, g.1 ≠ keyAmount := by
  constructor
  · exact fun hall g hg => hall g (List.mem_append_left _ hg)
  · intro hall g hg
    rcases List.mem_append.mp hg with hg | hg
    · exact hall g hg
    · rw [List.mem_singleton.mp hg]
      exact h

omit [CaseTables] in
/-- What the fields read so far come to. -/
theorem readFields_fields {a : Text} : ∀ {fields : List (Text × Text)} {r : PaymentRequest},
    Res.foldlM readField ⟨a, none, [], []⟩ fields = .ok r →
    (∀ s, r.sats = some s ↔ ∃ raw val, (keyAmount, raw) ∈ fields ∧
        percentDecode raw = .ok val ∧ NamesSats val s) ∧
      (r.sats = none ↔ ∀ f ∈ fields, f.1 ≠ keyAmount) ∧
      (r.label = [] ↔ lastValue keyLabel fields = []) ∧
      (r.message = [] ↔ lastValue keyMessage fields = []) := by
  intro fields
  induction fields using List.reverseRecOn with
  | nil =>
    intro r h
    cases h
    refine ⟨fun s => ⟨fun h => (by cases h), ?_⟩, ?_, Iff.rfl, Iff.rfl⟩
    · rintro ⟨raw, val, hmem, -⟩
      cases hmem
    · exact ⟨fun _ f hf => (by cases hf), fun _ => rfl⟩
  | append_singleton fields f ih =>
    intro r h
    rw [Res.foldlM_append] at h
    obtain ⟨out, hout, hlast⟩ := Res.bind_eq_ok.mp h
    rw [Res.foldlM_cons] at hlast
    obtain ⟨out', hstep, hlast⟩ := Res.bind_eq_ok.mp hlast
    cases hlast
    obtain ⟨hsome, hnone, hlabel, hmessage⟩ := ih hout
    obtain ⟨val, hval, hcases⟩ := readField_ok hstep
    rw [lastValue_concat, lastValue_concat]
    -- A field that is no amount leaves the amounts as they were.
    have hsame : f.1 ≠ keyAmount →
        ((∀ s, out.sats = some s ↔ ∃ raw val, (keyAmount, raw) ∈ fields ++ [f] ∧
          percentDecode raw = .ok val ∧ NamesSats val s) ∧
        (out.sats = none ↔ ∀ g ∈ fields ++ [f], g.1 ≠ keyAmount)) := fun hkey =>
      ⟨fun s => (hsome s).trans (exists_congr fun raw => exists_congr fun val =>
        and_congr_left' (amount_mem_concat hkey raw).symm), hnone.trans (no_amount_concat hkey).symm⟩
    rcases hcases with ⟨hkey, honce, sats, hnames, rfl⟩ | ⟨hkey, rfl⟩ | ⟨hkey, rfl⟩ |
      ⟨hamount, hnotlabel, hnotmessage, rfl⟩
    · rw [if_neg (by rw [hkey]; decide), if_neg (by rw [hkey]; decide)]
      refine ⟨fun s => ?_, ?_, hlabel, hmessage⟩
      · constructor
        · intro hs
          cases hs
          refine ⟨f.2, val, List.mem_append_right _ ?_, hval, hnames⟩
          rw [← hkey]
          exact List.mem_singleton_self f
        · rintro ⟨raw, val', hmem, hval', hnames'⟩
          rcases List.mem_append.mp hmem with hmem | hmem
          · exact absurd rfl (hnone.mp honce _ hmem)
          · rw [← List.mem_singleton.mp hmem, hval', Res.ok.injEq] at hval
            rw [← hval] at hnames
            have hread := readAmount_iff.mpr hnames
            rw [readAmount_iff.mpr hnames', Res.ok.injEq] at hread
            rw [hread]
      · refine ⟨fun hs => (by cases hs), fun hall => ?_⟩
        exact absurd hkey (hall f (List.mem_append_right _ (List.mem_singleton_self f)))
    · obtain ⟨hs, hn⟩ := hsame (by rw [hkey]; decide)
      rw [if_pos hkey, if_neg (by rw [hkey]; decide)]
      exact ⟨hs, hn, capUtf16_eq_nil hval, hmessage⟩
    · obtain ⟨hs, hn⟩ := hsame (by rw [hkey]; decide)
      rw [if_neg (by rw [hkey]; decide), if_pos hkey]
      exact ⟨hs, hn, hlabel, capUtf16_eq_nil hval⟩
    · obtain ⟨hs, hn⟩ := hsame hamount
      rw [if_neg hnotlabel, if_neg hnotmessage]
      exact ⟨hs, hn, hlabel, hmessage⟩

/-! ### Reading what is written -/

omit [CaseTables] in
theorem endsInSpace_value {val : Text} (h : val.all isValueChar = true) : ¬ EndsInSpace val := by
  rintro ⟨c, hc, hspace⟩
  have hvalue := List.all_eq_true.mp h c (List.mem_of_getLast? hc)
  unfold isValueChar at hvalue
  rw [hspace, Bool.or_true] at hvalue
  cases hvalue

omit [CaseTables] in
theorem not_mem_value {val : Text} (h : val.all isValueChar = true) :
    ∀ c ∈ ['&', '=', '#', '?'], c ∉ val := by
  intro c hc hmem
  have hvalue := List.all_eq_true.mp h c hmem
  unfold isValueChar at hvalue
  rw [List.contains_iff_mem.mpr hc, Bool.true_or] at hvalue
  cases hvalue

/-- A field that is written: a key in lower case and a value that parts nothing. -/
structure Written (f : Text × Text) : Prop where
  key : toLowercase f.1 = f.1
  keyChars : f.1.all isValueChar = true
  value : f.2 ≠ []
  valueChars : f.2.all isValueChar = true

theorem written_key {key : Text} (h : key = keyAmount ∨ key = keyLabel ∨ key = keyMessage) :
    toLowercase key = key ∧ key.all isValueChar = true := by
  have hlower : ∀ s : Text, s.all (fun c => decide (c.toNat < 128)) = true →
      toLowercase s = s.map Char.toLower := fun s hs =>
    toLowercase_ascii fun c hc => of_decide_eq_true (List.all_eq_true.mp hs c hc)
  rcases h with rfl | rfl | rfl
  · exact ⟨(hlower keyAmount (by decide)).trans (by decide), by decide⟩
  · exact ⟨(hlower keyLabel (by decide)).trans (by decide), by decide⟩
  · exact ⟨(hlower keyMessage (by decide)).trans (by decide), by decide⟩

omit [CaseTables] in
/-- What an amount is written with. -/
theorem satsToCoins_chars (sats : ℕ) :
    ∀ c ∈ satsToCoins sats, c.isDigit = true ∨ c = '.' := by
  have hdigits : ∀ {s : Text}, s.all Char.isDigit = true → ∀ c ∈ s, c.isDigit = true ∨ c = '.' :=
    fun h c hc => .inl (List.all_eq_true.mp h c hc)
  unfold satsToCoins
  split_ifs
  · exact hdigits (toDigits_digits _)
  · intro c hc
    rcases List.mem_append.mp hc with hc | hc
    · exact hdigits (toDigits_digits _) c hc
    · rcases List.mem_cons.mp hc with hc | hc
      · exact .inr hc
      · exact hdigits (trimmed_value (Nat.mod_lt sats (show 0 < satsPerCoin by decide))).1 c hc

omit [CaseTables] in
theorem digit_plain {c : Char} (h : c.isDigit = true ∨ c = '.') :
    isValueChar c = true ∧ c.toNat < 128 ∧ c ≠ '+' ∧ c ≠ '%' := by
  have hall : ∀ n < 128, (Char.ofNat n).isDigit = true ∨ Char.ofNat n = '.' →
      isValueChar (Char.ofNat n) = true ∧ (Char.ofNat n).toNat < 128 ∧ Char.ofNat n ≠ '+' ∧
        Char.ofNat n ≠ '%' := by decide
  have hlt : c.toNat < 128 := by
    rcases h with h | rfl
    · have h9 := (Char.isDigit_iff_toNat.mp h).2
      have : '9'.toNat = 57 := rfl
      omega
    · decide
  have hchar := hall c.toNat hlt
  rw [Char.ofNat_toNat] at hchar
  exact hchar h

omit [CaseTables] in
theorem satsToCoins_ne_nil (sats : ℕ) : satsToCoins sats ≠ [] := by
  unfold satsToCoins
  split_ifs
  · exact Nat.toDigits_ne_nil
  · exact List.append_ne_nil_of_right_ne_nil _ (List.cons_ne_nil _ _)

/-- Every field of a request is written so. -/
theorem written_fields (r : PaymentRequest) : ∀ f ∈ r.fields, Written f := by
  intro f hf
  unfold PaymentRequest.fields at hf
  rcases List.mem_append.mp hf with hf | hf
  · rcases List.mem_append.mp hf with hf | hf
    · cases hs : r.sats with
      | none =>
        rw [hs] at hf
        cases hf
      | some sats =>
        rw [hs] at hf
        rw [List.mem_singleton.mp hf]
        obtain ⟨hkey, hchars⟩ := written_key (.inl rfl)
        refine ⟨hkey, hchars, satsToCoins_ne_nil sats, List.all_eq_true.mpr fun c hc => ?_⟩
        exact (digit_plain (satsToCoins_chars sats c hc)).1
    · split_ifs at hf with hlabel
      · cases hf
      · rw [List.mem_singleton.mp hf]
        obtain ⟨hkey, hchars⟩ := written_key (.inr (.inl rfl))
        exact ⟨hkey, hchars, percentEncode_ne_nil hlabel, percentEncode_isValueChar _⟩
  · split_ifs at hf with hmessage
    · cases hf
    · rw [List.mem_singleton.mp hf]
      obtain ⟨hkey, hchars⟩ := written_key (.inr (.inr rfl))
      exact ⟨hkey, hchars, percentEncode_ne_nil hmessage, percentEncode_isValueChar _⟩

/-- Fields end in a value. -/
theorem endsInSpace_pushFields : ∀ {fields : List (Text × Text)} {sep : Char}, fields ≠ [] →
    (∀ f ∈ fields, Written f) → ¬ EndsInSpace (pushFields sep fields)
  | [], _, hne, _ => absurd rfl hne
  | [f], sep, _, hall => by
    have hf := hall f List.mem_cons_self
    have hshape : pushFields sep [f] = (sep :: (f.1 ++ ['='])) ++ f.2 := by
      simp [pushFields]
    rw [hshape, endsInSpace_append hf.value]
    exact endsInSpace_value hf.valueChars
  | f :: g :: fields, sep, _, hall => by
    rw [pushFields, endsInSpace_append (by simp [pushFields])]
    exact endsInSpace_pushFields (List.cons_ne_nil g fields)
      fun x hx => hall x (List.mem_cons_of_mem f hx)

/-- A mark in the fields is one of the separators. -/
theorem mem_pushFields {c : Char} (hc : c ∈ ['#', '?']) : ∀ {fields : List (Text × Text)} {sep : Char},
    (∀ f ∈ fields, Written f) → c ∈ pushFields sep fields → c = sep
  | [], _, _, h => absurd h List.not_mem_nil
  | f :: fields, sep, hall, h => by
    have hf := hall f List.mem_cons_self
    have hmark : c ∈ ['&', '=', '#', '?'] := List.mem_append_right ['&', '='] hc
    have hother : c ≠ '&' ∧ c ≠ '=' := by
      rcases List.mem_cons.mp hc with rfl | hc
      · decide
      · rw [List.mem_singleton.mp hc]
        decide
    rw [pushFields, List.mem_append, List.mem_cons, List.mem_append, List.mem_cons] at h
    rcases h with (h | h | h | h) | h
    · exact h
    · exact absurd h (not_mem_value hf.keyChars c hmark)
    · exact absurd h hother.2
    · exact absurd h (not_mem_value hf.valueChars c hmark)
    · exact absurd (mem_pushFields hc (fun x hx => hall x (List.mem_cons_of_mem f hx)) h) hother.1

omit [CaseTables] in
/-- A field's text. -/
theorem splitOn_pushFields {part : Text} (hpart : '&' ∉ part) : ∀ {fields : List (Text × Text)},
    (∀ f ∈ fields, '&' ∉ f.1 ++ '=' :: f.2) →
    (part ++ pushFields '&' fields).splitOn '&' = part :: fields.map fun f => f.1 ++ '=' :: f.2
  | [], _ => by
    have hnone : ∀ x ∈ part, (x == '&') = false := fun x hx =>
      beq_eq_false_iff_ne.mpr fun h => hpart (by rw [← h]; exact hx)
    rw [pushFields, List.append_nil]
    exact List.splitOnP_eq_singleton hnone
  | f :: fields, hall => by
    have hnone : ∀ x ∈ part, (x == '&') = false := fun x hx =>
      beq_eq_false_iff_ne.mpr fun h => hpart (by rw [← h]; exact hx)
    have hrest := splitOn_pushFields (hall f List.mem_cons_self)
      fun x hx => hall x (List.mem_cons_of_mem f hx)
    rw [pushFields, List.cons_append, List.map_cons, ← hrest]
    exact List.splitOnP_append_cons_of_forall_mem hnone '&' (beq_self_eq_true _) _

/-- **The fields that are written are the fields of the query.** -/
theorem queryFields_pushFields {f : Text × Text} {fields : List (Text × Text)}
    (hall : ∀ g ∈ f :: fields, Written g) :
    queryFields ((f.1 ++ '=' :: f.2) ++ pushFields '&' fields) = f :: fields := by
  have hparts : ∀ g ∈ f :: fields, '&' ∉ g.1 ++ '=' :: g.2 := by
    intro g hg hmem
    have hw := hall g hg
    rcases List.mem_append.mp hmem with h | h
    · exact not_mem_value hw.keyChars '&' List.mem_cons_self h
    · rcases List.mem_cons.mp h with h | h
      · exact absurd h (by decide)
      · exact not_mem_value hw.valueChars '&' List.mem_cons_self h
  have hkeep : ((f :: fields).map fun g => g.1 ++ '=' :: g.2).filter (fun part => !part.isEmpty) =
      (f :: fields).map fun g => g.1 ++ '=' :: g.2 := by
    refine List.filter_eq_self.mpr fun part hpart => ?_
    obtain ⟨g, -, rfl⟩ := List.mem_map.mp hpart
    cases g.1 <;> rfl
  have hsplitOn : ((f.1 ++ '=' :: f.2) ++ pushFields '&' fields).splitOn '&' =
      (f :: fields).map fun g => g.1 ++ '=' :: g.2 :=
    splitOn_pushFields (hparts f List.mem_cons_self) fun g hg => hparts g (List.mem_cons_of_mem f hg)
  unfold queryFields
  rw [hsplitOn, hkeep, List.map_map]
  conv_rhs => rw [← List.map_id (f :: fields)]
  refine List.map_congr_left fun g hg => ?_
  have hw := hall g hg
  have hequals : '=' ∉ g.1 := not_mem_value hw.keyChars '=' (by decide)
  have hsplit : splitOnceChar '=' (g.1 ++ '=' :: g.2) = some (g.1, g.2) :=
    splitOnceChar_eq_some.mpr ⟨rfl, hequals⟩
  dsimp only [Function.comp_apply]
  rw [hsplit, Option.getD_some, hw.key]
  rfl

omit [CaseTables] in
/-- An amount that is written is read into the request. -/
theorem readFields_amount {out : PaymentRequest} {sats : Option ℕ} (hout : out.sats = none)
    (hsats : ∀ s, sats = some s → 1 ≤ s ∧ s ≤ maxSats) :
    Res.foldlM readField out (sats.map fun s => (keyAmount, satsToCoins s)).toList =
      .ok { out with sats := sats } := by
  cases sats with
  | none =>
    exact congrArg (fun n => (Res.ok { out with sats := n } : Res RequestError PaymentRequest)) hout
  | some s =>
    obtain ⟨hpos, hmax⟩ := hsats s rfl
    have hread : readField out (keyAmount, satsToCoins s) = .ok { out with sats := some s } :=
      readField_amount.mpr ⟨hout, _, s, percentDecode_plain fun c hc =>
        (digit_plain (satsToCoins_chars s c hc)).2, satsToCoins_names hpos hmax, rfl⟩
    change Res.foldlM readField _ [(keyAmount, satsToCoins s)] = _
    rw [Res.foldlM_cons, hread]
    rfl

omit [CaseTables] in
theorem readFields_label {out : PaymentRequest} {label : Text} (hout : out.label = [])
    (hlabel : utf16Len label ≤ maxWords) :
    Res.foldlM readField out (if label = [] then [] else [(keyLabel, percentEncode label)]) =
      .ok { out with label := label } := by
  split_ifs with hnil
  · rw [hnil, ← hout]
    rfl
  · have hread : readField out (keyLabel, percentEncode label) = .ok { out with label := label } := by
      unfold readField
      dsimp only
      rw [percentDecode_percentEncode, Res.ok_bind, if_neg (by decide), if_pos rfl,
        capUtf16_fits hlabel]
    rw [Res.foldlM_cons, hread]
    rfl

omit [CaseTables] in
theorem readFields_message {out : PaymentRequest} {message : Text} (hout : out.message = [])
    (hmessage : utf16Len message ≤ maxWords) :
    Res.foldlM readField out (if message = [] then [] else [(keyMessage, percentEncode message)]) =
      .ok { out with message := message } := by
  split_ifs with hnil
  · rw [hnil, ← hout]
    rfl
  · have hread : readField out (keyMessage, percentEncode message) =
        .ok { out with message := message } := by
      unfold readField
      dsimp only
      rw [percentDecode_percentEncode, Res.ok_bind, if_neg (by decide), if_neg (by decide),
        if_pos rfl, capUtf16_fits hmessage]
    rw [Res.foldlM_cons, hread]
    rfl

omit [CaseTables] in
/-- The fields of a request give its amount and its words. -/
theorem readFields_fields_of {r : PaymentRequest} (hsats : ∀ s, r.sats = some s → 1 ≤ s ∧ s ≤ maxSats)
    (hlabel : utf16Len r.label ≤ maxWords) (hmessage : utf16Len r.message ≤ maxWords) :
    Res.foldlM readField ⟨r.address, none, [], []⟩ r.fields = .ok r := by
  unfold PaymentRequest.fields
  rw [Res.foldlM_append, Res.foldlM_append, readFields_amount rfl hsats, Res.ok_bind,
    readFields_label rfl hlabel, Res.ok_bind, readFields_message rfl hmessage]

omit [CaseTables] in
theorem stripScheme_scheme (s : Text) : stripScheme (scheme ++ s) = some s := by
  unfold stripScheme
  rw [List.take_left', List.drop_left', if_pos (by decide)]
  · rfl
  · rfl

omit [CaseTables] in
theorem scheme_not_space : ∀ c ∈ scheme, jsSpace c = false := by
  have h : scheme.all (fun c => !jsSpace c) = true := by decide
  exact fun c hc => Bool.not_eq_eq_eq_not.mp (List.all_eq_true.mp h c hc)

omit [CaseTables] in
theorem fields_eq_nil {r : PaymentRequest} : r.fields = [] ↔ r.Bare := by
  unfold PaymentRequest.fields PaymentRequest.Bare
  rw [List.append_eq_nil_iff, List.append_eq_nil_iff, and_assoc]
  refine and_congr ?_ (and_congr ?_ ?_)
  · cases r.sats <;> simp
  · split_ifs with h <;> simp [h]
  · split_ifs with h <;> simp [h]

/-- The address and the query of what is written, when its end is kept. -/
theorem splitRequest_toUri {r : PaymentRequest} (hr : Readable r)
    (h : ¬ (r.Bare ∧ EndsInSpace r.address)) :
    ∃ query, splitRequest r.toUri = some (r.address, query) ∧ queryFields query = r.fields := by
  have hwritten := written_fields r
  have htail : ¬ EndsInSpace (r.address ++ pushFields '?' r.fields) := by
    by_cases hnil : r.fields = []
    · rw [hnil, pushFields, List.append_nil]
      exact fun hspace => h ⟨fields_eq_nil.mp hnil, hspace⟩
    · rw [endsInSpace_append (by
        obtain ⟨f, fields, hf⟩ := List.exists_cons_of_ne_nil hnil
        rw [hf, pushFields]
        exact List.cons_ne_nil _ _)]
      exact endsInSpace_pushFields hnil hwritten
  have htrim : jsTrim r.toUri = scheme ++ (r.address ++ pushFields '?' r.fields) := by
    unfold PaymentRequest.toUri
    rw [List.append_assoc, jsTrim_append_left (by decide) scheme_not_space, rdropWhile_eq_self htail]
  have hhash : '#' ∉ r.address ++ pushFields '?' r.fields := by
    intro hmem
    rcases List.mem_append.mp hmem with hmem | hmem
    · exact hr.hash hmem
    · exact absurd (mem_pushFields (by decide) hwritten hmem) (by decide)
  have hsplit : splitRequest r.toUri = some ((splitOnceChar '?' (r.address ++
      pushFields '?' r.fields)).getD (r.address ++ pushFields '?' r.fields, [])) := by
    unfold splitRequest
    rw [htrim, stripScheme_scheme, Option.bind_some, if_neg hhash]
  cases hfields : r.fields with
  | nil =>
    rw [hfields, pushFields, List.append_nil, splitOnceChar_eq_none.mpr hr.question] at hsplit
    exact ⟨[], hsplit, rfl⟩
  | cons f fields =>
    rw [hfields] at hwritten
    rw [hfields, pushFields, List.cons_append, splitOnceChar_eq_some.mpr ⟨rfl, hr.question⟩] at hsplit
    exact ⟨_, hsplit, queryFields_pushFields hwritten⟩

/-- **What is written is read back, unless its end is trimmed.** -/
theorem parse_toUri {r : PaymentRequest} (hr : Readable r)
    (h : ¬ (r.Bare ∧ EndsInSpace r.address)) : parse r.toUri = .ok (some r) := by
  obtain ⟨query, hsplit, hfields⟩ := splitRequest_toUri hr h
  have hne : r.address.isEmpty = false := List.isEmpty_eq_false_iff.mpr hr.nonempty
  unfold parse
  rw [hsplit]
  dsimp only
  rw [hr.folded, hfields, hne, Res.refuseIf_false, Res.ok_bind,
    readFields_fields_of hr.sats hr.label hr.message, Res.ok_bind]

/-- White space at the end of what is written is lost. -/
theorem parse_toUri_bare {r : PaymentRequest} (hr : Readable r) (hbare : r.Bare)
    (hspace : EndsInSpace r.address) : parse r.toUri ≠ .ok (some r) := by
  intro h
  obtain ⟨raw, query, hsplit, -, hfields⟩ := parse_ok h
  have huri : jsTrim r.toUri = scheme ++ r.address.rdropWhile jsSpace := by
    unfold PaymentRequest.toUri
    rw [fields_eq_nil.mpr hbare, pushFields, List.append_nil,
      jsTrim_append_left (by decide) scheme_not_space]
  have hkept : r.address.rdropWhile jsSpace <+: r.address := List.rdropWhile_prefix jsSpace _
  have hnot : ∀ c, c ∉ r.address → c ∉ r.address.rdropWhile jsSpace :=
    fun c hc hmem => hc (hkept.subset hmem)
  unfold splitRequest at hsplit
  rw [huri, stripScheme_scheme, Option.bind_some, if_neg (hnot _ hr.hash),
    splitOnceChar_eq_none.mpr (hnot _ hr.question), Option.getD_none] at hsplit
  cases hsplit
  have haddress := (readFields_bounds hfields).1
  rw [haddress, endsInSpace_foldAddress] at hspace
  exact not_endsInSpace_rdropWhile _ hspace

/-! ### What is built -/

/-- ASCII text without marks and white space. -/
structure AddressText (address : Text) : Prop where
  nonempty : address ≠ []
  ascii : ∀ c ∈ address, c.toNat < 128
  question : '?' ∉ address
  hash : '#' ∉ address
  whitespace : ∀ c ∈ address, isWhitespace c = false

omit [CaseTables] in
/-- White space of ASCII is the same to both. -/
theorem jsSpace_ascii {c : Char} (h : c.toNat < 128) : jsSpace c = isWhitespace c := by
  have hall : ∀ n < 128, jsSpace (Char.ofNat n) = isWhitespace (Char.ofNat n) := by decide
  have := hall c.toNat h
  rwa [Char.ofNat_toNat] at this

/-- A request of an address. -/
theorem newRequest_readable {address : Text} (ha : AddressText address) :
    Readable ⟨toLowercase address, none, [], []⟩ ∧ ¬ EndsInSpace (toLowercase address) := by
  have hspace : ¬ EndsInSpace address := by
    rintro ⟨c, hc, hspace⟩
    have hmem := List.mem_of_getLast? hc
    rw [jsSpace_ascii (ha.ascii c hmem), ha.whitespace c hmem] at hspace
    cases hspace
  refine ⟨⟨lowerFrom_ne_nil ha.nonempty, fun hmem => ha.question (toLowercase_plain (.inl rfl) hmem),
    fun hmem => ha.hash (toLowercase_plain (.inr rfl) hmem), ?_, fun s hs => (by cases hs),
    Nat.zero_le _, Nat.zero_le _⟩, fun hends => hspace (endsInSpace_toLowercase.mp hends)⟩
  unfold foldAddress
  split_ifs
  · exact toLowercase_idem _
  · rfl

/-- **What is built is readable, and does not end in white space.** -/
theorem built_readable {isAddress : Text → Bool}
    (haddress : ∀ a, isAddress a = true → AddressText a) {r : PaymentRequest}
    (h : Built isAddress r) : Readable r ∧ ¬ EndsInSpace r.address := by
  induction h with
  | @new address r h =>
    unfold newRequest at h
    split_ifs at h with hgood
    rw [Res.ok.injEq] at h
    subst h
    exact newRequest_readable (haddress _ hgood)
  | @amount r r' sats _ h ih =>
    obtain ⟨hr, hspace⟩ := ih
    unfold PaymentRequest.withAmount at h
    obtain ⟨_, hzero, h⟩ := Res.bind_eq_ok.mp h
    obtain ⟨_, hmax, h⟩ := Res.bind_eq_ok.mp h
    rw [Res.refuseIf_eq_ok, beq_eq_false_iff_ne] at hzero
    rw [Res.refuseIf_eq_ok, decide_eq_false_iff_not] at hmax
    rw [Res.ok.injEq] at h
    subst h
    refine ⟨⟨hr.nonempty, hr.question, hr.hash, hr.folded, fun s hs => ?_, hr.label, hr.message⟩,
      hspace⟩
    cases hs
    omega
  | @label r r' label _ h ih =>
    obtain ⟨hr, hspace⟩ := ih
    unfold PaymentRequest.withLabel words at h
    split_ifs at h with hlong
    · cases h
    · cases h
      exact ⟨⟨hr.nonempty, hr.question, hr.hash, hr.folded, hr.sats, Nat.le_of_not_lt hlong,
        hr.message⟩, hspace⟩
  | @message r r' message _ h ih =>
    obtain ⟨hr, hspace⟩ := ih
    unfold PaymentRequest.withMessage words at h
    split_ifs at h with hlong
    · cases h
    · cases h
      exact ⟨⟨hr.nonempty, hr.question, hr.hash, hr.folded, hr.sats, hr.label,
        Nat.le_of_not_lt hlong⟩, hspace⟩

/-! ### Round trips -/

/-- The text names nothing but an address that ends in white space. -/
def LosesSpace (text : Text) : Prop :=
  ∃ raw query, splitRequest text = some (raw, query) ∧ EndsInSpace raw ∧
    NamesNothing (queryFields query)

/-- A request that is read is read back unless its text loses white space. -/
theorem parse_toUri_iff {text : Text} {r : PaymentRequest} (h : parse text = .ok (some r)) :
    parse r.toUri = .ok (some r) ↔ ¬ LosesSpace text := by
  have hr := parse_readable h
  obtain ⟨raw, query, hsplit, -, hfields⟩ := parse_ok h
  have haddress := (readFields_bounds hfields).1
  obtain ⟨-, hsats, hlabel, hmessage⟩ := readFields_fields hfields
  have hbare : r.Bare ↔ NamesNothing (queryFields query) :=
    and_congr hsats (and_congr hlabel hmessage)
  have hspace : EndsInSpace r.address ↔ EndsInSpace raw := by
    rw [haddress]
    exact endsInSpace_foldAddress
  have hloses : LosesSpace text ↔ r.Bare ∧ EndsInSpace r.address := by
    rw [hbare, hspace]
    constructor
    · rintro ⟨raw', query', hsplit', hends, hnothing⟩
      rw [hsplit, Option.some.injEq, Prod.mk.injEq] at hsplit'
      obtain ⟨rfl, rfl⟩ := hsplit'
      exact ⟨hnothing, hends⟩
    · rintro ⟨hnothing, hends⟩
      exact ⟨raw, query, hsplit, hends, hnothing⟩
  rw [hloses]
  exact ⟨fun hback hlost => parse_toUri_bare hr hlost.1 hlost.2 hback, parse_toUri hr⟩

/-- The amounts of a request are read exactly. -/
structure AmountsExact : Prop where
  /-- One sat or more, of 21 million coins at the most, and nothing overflows. -/
  value : ∀ val sats, readAmount val = .ok sats ↔ NamesSats val sats
  fits : ∀ val, coinsToSats val ≠ .panic
  /-- The first amount of a query is read when it names one, and only then. -/
  field : ∀ out raw r, readField out (keyAmount, raw) = .ok r ↔ out.sats = none ∧
    ∃ val sats, percentDecode raw = .ok val ∧ NamesSats val sats ∧
      r = { out with sats := some sats }
  /-- A request has the amount its query names. -/
  request : ∀ text r, parse text = .ok (some r) → ∀ raw query,
    splitRequest text = some (raw, query) → ∀ sats, r.sats = some sats ↔
      ∃ written val, (keyAmount, written) ∈ queryFields query ∧
        percentDecode written = .ok val ∧ NamesSats val sats

theorem amounts_exact : AmountsExact := by
  refine ⟨fun _ _ => readAmount_iff, coinsToSats_ne_panic, fun _ _ _ => readField_amount, ?_⟩
  intro text r h raw query hsplit sats
  obtain ⟨raw', query', hsplit', -, hfields⟩ := parse_ok h
  rw [hsplit, Option.some.injEq, Prod.mk.injEq] at hsplit'
  obtain ⟨rfl, rfl⟩ := hsplit'
  exact (readFields_fields hfields).1 sats

/-- **A request that was built is read back, and one that was read is unless it names
nothing but an address that ends in white space.** -/
theorem request_reads_back_iff (isAddress : Text → Bool)
    (haddress : ∀ a, isAddress a = true → AddressText a) :
    (∀ r, Built isAddress r → parse r.toUri = .ok (some r)) ∧
      (∀ text r, parse text = .ok (some r) →
        (parse r.toUri = .ok (some r) ↔ ¬ LosesSpace text)) ∧
      AmountsExact := by
  refine ⟨fun r hbuilt => ?_, fun _ _ => parse_toUri_iff, amounts_exact⟩
  obtain ⟨hr, hspace⟩ := built_readable haddress hbuilt
  exact parse_toUri hr fun hlost => hspace hlost.2

end

/-! ### A sample -/

section

/-- Lower case of ASCII and of the sigma; other characters are left. -/
def asciiLower (c : Char) : Text := if c = 'Σ' then ['σ'] else [c.toLower]

theorem toLower_other {c : Char} (h : ¬ c.toNat < 128) : c.toLower = c := by
  unfold Char.toLower
  rw [dif_neg]
  rintro ⟨-, hz⟩
  have hle : c.toNat ≤ 'Z'.toNat := UInt32.le_iff_toNat_le.mp hz
  have : 'Z'.toNat = 90 := rfl
  omega

/-- What the tables are relied on for, of one character. -/
theorem toLower_laws {c : Char} (h : c ≠ 'Σ') : c.toLower.toLower = c.toLower ∧ c.toLower ≠ 'Σ' ∧
    (c.toLower = '?' ∨ c.toLower = '#' ∨ jsSpace c.toLower = true → c.toLower = c) ∧
    (jsSpace c = true → c.toLower = c) := by
  by_cases hascii : c.toNat < 128
  · have hall : ∀ n < 128, (Char.ofNat n).toLower.toLower = (Char.ofNat n).toLower ∧
        (Char.ofNat n).toLower ≠ 'Σ' ∧
        ((Char.ofNat n).toLower = '?' ∨ (Char.ofNat n).toLower = '#' ∨
          jsSpace (Char.ofNat n).toLower = true → (Char.ofNat n).toLower = Char.ofNat n) ∧
        (jsSpace (Char.ofNat n) = true → (Char.ofNat n).toLower = Char.ofNat n) := by
      decide +kernel
    have hc := hall c.toNat hascii
    rwa [Char.ofNat_toNat] at hc
  · have hself := toLower_other hascii
    rw [hself, hself]
    exact ⟨rfl, h, fun _ => rfl, fun _ => rfl⟩

@[reducible] def asciiTables : CaseTables where
  upper c := [c.toUpper]
  lower := asciiLower
  cased := Char.isAlpha
  ignorable _ := false
  lower_ascii c h := if_neg fun heq => by
    rw [heq] at h
    exact absurd h (by decide)
  lower_ne_nil c := by
    unfold asciiLower
    split_ifs
    · exact List.cons_ne_nil _ _
    · exact List.cons_ne_nil _ _
  lower_lower c d hd := by
    unfold asciiLower at hd
    split_ifs at hd with hsigma
    · rw [List.mem_singleton.mp hd]
      exact ⟨by decide, by decide⟩
    · obtain ⟨hidem, hne, -, -⟩ := toLower_laws hsigma
      rw [List.mem_singleton.mp hd]
      exact ⟨(if_neg hne).trans (congrArg (fun x => [x]) hidem), hne⟩
  lower_sigma := by decide
  lower_final_sigma := by decide
  lower_plain c d hd hplain := by
    unfold asciiLower at hd
    split_ifs at hd with hsigma
    · rw [List.mem_singleton.mp hd] at hplain
      exact absurd hplain (by decide)
    · rw [List.mem_singleton.mp hd] at hplain ⊢
      exact (toLower_laws hsigma).2.2.1 hplain
  lower_space c hspace := by
    have hsigma : c ≠ 'Σ' := fun heq => by
      rw [heq] at hspace
      exact absurd hspace (by decide)
    exact (if_neg hsigma).trans
      (congrArg (fun x => [x]) ((toLower_laws hsigma).2.2.2 hspace))

attribute [local instance] asciiTables

def sampleAddress : Text :=
  ['t', 'b', '1', 'p', 'f', 'u', '6', '4', 'h', 'h', '9', 'h', 'e', 's', '9', '0', 'w', '2', '8',
    '0', '8', 'n', '8', 't', 'j', 'c', '2', 'a', 'j', 'p', '5', 'y', 'h', 'd', 'd', 'j', 'e',
    'f', '0', 'c', 't', 'x', '4', 's', '7', 'z', 'm', 's', 'g', 'p', '6', 'c', 'w', 'x', '4',
    'q', 'u', 'v', 'l', 'a', '6', 'g']

/-- A request for a thousandth of a coin. -/
def samplePayment : PaymentRequest := ⟨sampleAddress, some 100000, [], []⟩

theorem sampleAddress_text : AddressText sampleAddress := by
  refine ⟨by decide, ?_, by decide, by decide, ?_⟩
  · have h : sampleAddress.all (fun c => decide (c.toNat < 128)) = true := by decide
    exact fun c hc => of_decide_eq_true (List.all_eq_true.mp h c hc)
  · have h : sampleAddress.all (fun c => !isWhitespace c) = true := by decide
    exact fun c hc => (Bool.not_eq_eq_eq_not.mp (List.all_eq_true.mp h c hc))

/-- A request that was built is read back. -/
theorem request_reads_back_sample : parse samplePayment.toUri = .ok (some samplePayment) := by
  have haddress : ∀ a, (a == sampleAddress) = true → AddressText a := fun a ha =>
    eq_of_beq ha ▸ sampleAddress_text
  refine (request_reads_back_iff (· == sampleAddress) haddress).1 samplePayment ?_
  have hnew : newRequest (· == sampleAddress) sampleAddress = .ok ⟨sampleAddress, none, [], []⟩ := by
    decide +kernel
  have hamount : (⟨sampleAddress, none, [], []⟩ : PaymentRequest).withAmount 100000 =
      .ok samplePayment := by decide
  exact .amount (.new hnew) hamount

/-- An address is read with the space before its `?`, which is trimmed when it is
written. -/
theorem trailing_space_lost : ¬ ∀ (text : Text) (r : PaymentRequest),
    parse text = .ok (some r) → parse r.toUri = .ok (some r) := by
  intro h
  have hread : parse (scheme ++ ['a', 'b', 'c', ' ', '?']) =
      .ok (some ⟨['a', 'b', 'c', ' '], none, [], []⟩) := by decide +kernel
  have hback := h _ _ hread
  exact absurd hback (by decide +kernel)

end

end Wallet

end Sidestr
