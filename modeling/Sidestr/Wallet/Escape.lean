/-
# The texts of a payment request

What `bip21.rs` does with a request's text: JavaScript's `trim`, the letter case and
the percent escapes. White space and the marks that end an address are nobody else's
lower case, lower case is kept (`toLowercase_idem`), and words that are written are
read back byte for byte (`percentDecode_percentEncode`).

Key definitions: `jsTrim`, `CaseTables`, `toLowercase`, `percentDecode`,
`percentEncode`.
Key theorems: `jsTrim_append_left`, `toLowercase_idem`, `toLowercase_last`,
`percentDecode_percentEncode`, `percentDecode_eq_nil`.
-/
import Sidestr.Core.Text
import Sidestr.Wallet.Coins

namespace Sidestr

namespace Wallet

/-! ### White space -/

/-- JavaScript's white space. -/
def jsSpace (c : Char) : Bool :=
  let n := c.toNat
  [0x9, 0xa, 0xb, 0xc, 0xd, 0x20, 0xa0, 0x1680, 0x2028, 0x2029, 0x202f, 0x205f, 0x3000,
    0xfeff].contains n || (decide (0x2000 ≤ n) && decide (n ≤ 0x200a))

/-- `char::is_whitespace`. -/
def isWhitespace (c : Char) : Bool :=
  let n := c.toNat
  [0x9, 0xa, 0xb, 0xc, 0xd, 0x20, 0x85, 0xa0, 0x1680, 0x2028, 0x2029, 0x202f, 0x205f,
    0x3000].contains n || (decide (0x2000 ≤ n) && decide (n ≤ 0x200a))

/-- Without the characters at both ends. -/
def trimMatches (p : Char → Bool) (s : Text) : Text := (s.dropWhile p).rdropWhile p

def jsTrim : Text → Text := trimMatches jsSpace

/-- `str::trim`. -/
def trim : Text → Text := trimMatches isWhitespace

/-- The text ends in white space. -/
def EndsInSpace (s : Text) : Prop := ∃ c, s.getLast? = some c ∧ jsSpace c = true

theorem endsInSpace_append {s t : Text} (ht : t ≠ []) : EndsInSpace (s ++ t) ↔ EndsInSpace t := by
  unfold EndsInSpace
  rw [List.getLast?_append_of_ne_nil _ ht]

theorem rdropWhile_eq_self {s : Text} (h : ¬ EndsInSpace s) : s.rdropWhile jsSpace = s :=
  List.rdropWhile_eq_self_iff.mpr fun hs hlast =>
    h ⟨s.getLast hs, List.getLast?_eq_some_getLast hs, hlast⟩

theorem not_endsInSpace_rdropWhile (s : Text) : ¬ EndsInSpace (s.rdropWhile jsSpace) := by
  rintro ⟨c, hc, hspace⟩
  have hne : s.rdropWhile jsSpace ≠ [] := fun hnil => by
    rw [hnil] at hc
    cases hc
  rw [List.getLast?_eq_some_getLast hne, Option.some.injEq] at hc
  exact List.rdropWhile_last_not _ _ hne (hc ▸ hspace)

/-- Only the end is trimmed of a text that starts and goes on with none. -/
theorem jsTrim_append_left {start s : Text} (hne : start ≠ [])
    (hstart : ∀ c ∈ start, jsSpace c = false) : jsTrim (start ++ s) =
      start ++ s.rdropWhile jsSpace := by
  have hdrop : (start ++ s).dropWhile jsSpace = start ++ s := by
    obtain ⟨c, rest, rfl⟩ := List.exists_cons_of_ne_nil hne
    rw [List.cons_append, List.dropWhile_cons_of_neg]
    rw [hstart c List.mem_cons_self]
    decide
  unfold jsTrim trimMatches
  rw [hdrop]
  induction s using List.reverseRecOn with
  | nil =>
    rw [List.append_nil, List.rdropWhile_nil, List.append_nil, List.rdropWhile_eq_self_iff]
    intro hs
    rw [hstart _ (List.getLast_mem hs)]
    decide
  | append_singleton s c ih =>
    rw [← List.append_assoc, List.rdropWhile_concat, List.rdropWhile_concat]
    split_ifs
    · refine ih ?_
      obtain ⟨d, rest, rfl⟩ := List.exists_cons_of_ne_nil hne
      rw [List.cons_append, List.dropWhile_cons_of_neg]
      rw [hstart d List.mem_cons_self]
      decide
    · rw [List.append_assoc]

/-! ### Letter case -/

/-- Unicode's tables of upper and lower case, and what is relied on of them. -/
class CaseTables where
  upper : Char → Text
  lower : Char → Text
  cased : Char → Bool
  ignorable : Char → Bool
  lower_ascii : ∀ c, c.toNat < 128 → lower c = [c.toLower]
  lower_ne_nil : ∀ c, lower c ≠ []
  /-- Lower case is its own, and no capital sigma. -/
  lower_lower : ∀ c d, d ∈ lower c → lower d = [d] ∧ d ≠ 'Σ'
  lower_sigma : lower 'σ' = ['σ']
  lower_final_sigma : lower 'ς' = ['ς']
  /-- White space and the two marks are the lower case of nothing else. -/
  lower_plain : ∀ c d, d ∈ lower c → d = '?' ∨ d = '#' ∨ jsSpace d = true → d = c
  lower_space : ∀ c, jsSpace c = true → lower c = [c]

variable [CaseTables]

open CaseTables

/-- `str::to_uppercase`. -/
def toUppercase (s : Text) : Text := s.flatMap upper

def caseIgnorableThenCased (s : Text) : Bool :=
  match s.dropWhile ignorable with
  | c :: _ => cased c
  | [] => false

/-- A character's lower case between what is before it, backwards, and after it. -/
def lowerAt (before : Text) (c : Char) (after : Text) : Text :=
  if c = 'Σ' then
    if caseIgnorableThenCased before && !caseIgnorableThenCased after then ['ς'] else ['σ']
  else lower c

def lowerFrom : Text → Text → Text
  | _, [] => []
  | before, c :: s => lowerAt before c s ++ lowerFrom (c :: before) s

/-- `str::to_lowercase`. -/
def toLowercase (s : Text) : Text := lowerFrom [] s

theorem lowerAt_lower {before after : Text} {c d : Char} (h : d ∈ lowerAt before c after) :
    lower d = [d] ∧ d ≠ 'Σ' := by
  unfold lowerAt at h
  split_ifs at h
  · rw [List.mem_singleton.mp h]
    exact ⟨lower_final_sigma, by decide⟩
  · rw [List.mem_singleton.mp h]
    exact ⟨lower_sigma, by decide⟩
  · exact lower_lower c d h

theorem lowerAt_plain {before after : Text} {c d : Char} (h : d ∈ lowerAt before c after)
    (hd : d = '?' ∨ d = '#' ∨ jsSpace d = true) : d = c := by
  unfold lowerAt at h
  split_ifs at h
  · rw [List.mem_singleton.mp h] at hd
    exact absurd hd (by decide)
  · rw [List.mem_singleton.mp h] at hd
    exact absurd hd (by decide)
  · exact lower_plain c d h hd

theorem lowerAt_ne_nil (before : Text) (c : Char) (after : Text) :
    lowerAt before c after ≠ [] := by
  unfold lowerAt
  split_ifs
  · exact List.cons_ne_nil _ _
  · exact List.cons_ne_nil _ _
  · exact lower_ne_nil c

/-- Every character of a lower case text has been looked up or is a sigma. -/
theorem mem_lowerFrom {d : Char} : ∀ {s before : Text}, d ∈ lowerFrom before s →
    ∃ b c a, c ∈ s ∧ d ∈ lowerAt b c a
  | [], _, h => absurd h List.not_mem_nil
  | c :: s, before, h => by
    rw [lowerFrom, List.mem_append] at h
    rcases h with h | h
    · exact ⟨before, c, s, List.mem_cons_self, h⟩
    · obtain ⟨b, c', a, hc, hd⟩ := mem_lowerFrom h
      exact ⟨b, c', a, List.mem_cons_of_mem _ hc, hd⟩

theorem lowerFrom_eq_self : ∀ {s before : Text}, (∀ c ∈ s, lower c = [c] ∧ c ≠ 'Σ') →
    lowerFrom before s = s
  | [], _, _ => rfl
  | c :: s, before, h => by
    obtain ⟨hc, hsigma⟩ := h c List.mem_cons_self
    rw [lowerFrom, lowerFrom_eq_self fun d hd => h d (List.mem_cons_of_mem _ hd)]
    unfold lowerAt
    rw [if_neg hsigma, hc, List.singleton_append]

/-- **Lower case is kept.** -/
theorem toLowercase_idem (s : Text) : toLowercase (toLowercase s) = toLowercase s :=
  lowerFrom_eq_self fun c hc => by
    obtain ⟨b, c', a, -, hd⟩ := mem_lowerFrom hc
    exact lowerAt_lower hd

theorem toLowercase_plain {s : Text} {d : Char} (hd : d = '?' ∨ d = '#')
    (h : d ∈ toLowercase s) : d ∈ s := by
  obtain ⟨b, c, a, hc, hmem⟩ := mem_lowerFrom h
  rw [lowerAt_plain hmem (hd.elim .inl fun h => .inr (.inl h))]
  exact hc

theorem lowerFrom_ne_nil {s before : Text} (h : s ≠ []) : lowerFrom before s ≠ [] := by
  cases s with
  | nil => exact absurd rfl h
  | cons c s =>
    rw [lowerFrom]
    exact List.append_ne_nil_of_left_ne_nil (lowerAt_ne_nil _ _ _) _

theorem endsInSpace_lowerFrom : ∀ {s before : Text},
    EndsInSpace (lowerFrom before s) ↔ EndsInSpace s
  | [], _ => Iff.rfl
  | c :: [], before => by
    rw [lowerFrom, lowerFrom, List.append_nil]
    constructor
    · rintro ⟨d, hd, hspace⟩
      have := lowerAt_plain (List.mem_of_getLast? hd) (.inr (.inr hspace))
      exact ⟨d, by rw [this]; rfl, hspace⟩
    · rintro ⟨d, hd, hspace⟩
      cases hd
      have hsigma : c ≠ 'Σ' := fun heq => by
        rw [heq] at hspace
        exact absurd hspace (by decide)
      refine ⟨c, ?_, hspace⟩
      unfold lowerAt
      rw [if_neg hsigma, lower_space c hspace]
      rfl
  | c :: d :: s, before => by
    have hcons : EndsInSpace ([c] ++ d :: s) ↔ EndsInSpace (d :: s) :=
      endsInSpace_append (List.cons_ne_nil d s)
    rw [lowerFrom, endsInSpace_append (lowerFrom_ne_nil (List.cons_ne_nil d s)),
      endsInSpace_lowerFrom]
    exact hcons.symm

/-- A text ends in white space in either case. -/
theorem endsInSpace_toLowercase {s : Text} : EndsInSpace (toLowercase s) ↔ EndsInSpace s :=
  endsInSpace_lowerFrom

theorem lowerFrom_ascii : ∀ {s before : Text}, (∀ c ∈ s, c.toNat < 128) →
    lowerFrom before s = s.map Char.toLower
  | [], _, _ => rfl
  | c :: s, before, h => by
    have hc := h c List.mem_cons_self
    have hsigma : c ≠ 'Σ' := fun heq => by
      rw [heq] at hc
      exact absurd hc (by decide)
    rw [lowerFrom, lowerFrom_ascii fun d hd => h d (List.mem_cons_of_mem _ hd)]
    unfold lowerAt
    rw [if_neg hsigma, lower_ascii c hc, List.map_cons, List.singleton_append]

theorem toLowercase_ascii {s : Text} (h : ∀ c ∈ s, c.toNat < 128) :
    toLowercase s = s.map Char.toLower :=
  lowerFrom_ascii h

/-! ### Escapes -/

omit [CaseTables]

/-- `str::as_bytes`. -/
def toUtf8 (s : Text) : Bytes := s.flatMap String.utf8EncodeChar

/-- `String::from_utf8`. -/
def fromUtf8 (b : Bytes) : Option Text := b.toByteArray.utf8Decode?.map Array.toList

/-- The bytes of a query value: `+` is a space, `%XX` a byte. -/
def unescape : Bytes → Option Bytes
  | [] => some []
  | b :: bytes =>
    if b = 0x2b then (unescape bytes).map (0x20 :: ·)
    else if b = 0x25 then
      match bytes with
      | hi :: lo :: rest => do
        let hi ← hexVal hi
        let lo ← hexVal lo
        let out ← unescape rest
        some (UInt8.ofNat (hi * 16 + lo) :: out)
      | _ => none
    else (unescape bytes).map (b :: ·)

def percentDecode (raw : Text) : Res RequestError Text := do
  let out ← Res.okOr .brokenEscape (unescape (toUtf8 raw))
  Res.okOr .brokenEscape (fromUtf8 out)

/-- Letters, digits and four marks. -/
def isUnreserved (b : UInt8) : Bool :=
  let n := b.toNat
  (decide (0x30 ≤ n) && decide (n ≤ 0x39)) || (decide (0x41 ≤ n) && decide (n ≤ 0x5a)) ||
    (decide (0x61 ≤ n) && decide (n ≤ 0x7a)) || [0x2d, 0x2e, 0x5f, 0x7e].contains n

def hexUpper (n : ℕ) : Char := Char.ofNat (if n < 10 then 0x30 + n else 0x37 + n)

def escapeByte (b : UInt8) : Text :=
  if isUnreserved b then [Char.ofNat b.toNat]
  else ['%', hexUpper (b.toNat / 16), hexUpper (b.toNat % 16)]

def percentEncode (text : Text) : Text := (toUtf8 text).flatMap escapeByte

theorem unescape_cons {b : UInt8} (bytes : Bytes) (hplus : b ≠ 0x2b) (hpercent : b ≠ 0x25) :
    unescape (b :: bytes) = (unescape bytes).map (b :: ·) := by
  rw [unescape.eq_def]
  dsimp only
  rw [if_neg hplus, if_neg hpercent]

theorem fromUtf8_toUtf8 (s : Text) : fromUtf8 (toUtf8 s) = some s := by
  have h : (toUtf8 s).toByteArray.utf8Decode? = some s.toArray := List.utf8Decode?_utf8Encode
  unfold fromUtf8
  rw [h]
  rfl

theorem toUtf8_of_fromUtf8 {b : Bytes} {s : Text} (h : fromUtf8 b = some s) : toUtf8 s = b := by
  obtain ⟨a, ha, rfl⟩ := Option.map_eq_some_iff.mp h
  obtain ⟨l, hl⟩ := ByteArray.isSome_utf8Decode?_iff.mp (Option.isSome_of_eq_some ha)
  rw [hl, List.utf8Decode?_utf8Encode, Option.some.injEq] at ha
  rw [← ha]
  have hbytes : b.toByteArray = (toUtf8 l).toByteArray := hl
  have := congrArg (fun x => x.data.toList) hbytes
  simpa using this.symm

theorem utf8EncodeChar_ascii {c : Char} (h : c.toNat < 128) :
    String.utf8EncodeChar c = [UInt8.ofNat c.toNat] := by
  have hsize : c.utf8Size = 1 := Char.utf8Size_eq_one_iff.mpr (by
    rw [UInt32.le_iff_toNat_le]
    exact Nat.le_of_lt_succ h)
  rw [String.utf8EncodeChar_eq_singleton hsize]
  rfl

theorem toUtf8_append (s t : Text) : toUtf8 (s ++ t) = toUtf8 s ++ toUtf8 t := List.flatMap_append

theorem toUtf8_ascii : ∀ {s : Text}, (∀ c ∈ s, c.toNat < 128) →
    toUtf8 s = s.map fun c => UInt8.ofNat c.toNat
  | [], _ => rfl
  | c :: s, h => by
    have ih := toUtf8_ascii fun d hd => h d (List.mem_cons_of_mem c hd)
    unfold toUtf8 at ih ⊢
    rw [List.flatMap_cons, utf8EncodeChar_ascii (h c List.mem_cons_self), ih]
    rfl

theorem hexUpper_spec : ∀ n < 16, (hexUpper n).toNat < 128 ∧
    hexVal (UInt8.ofNat (hexUpper n).toNat) = some n := by decide

theorem ofNat_spec : ∀ n < 128, (Char.ofNat n).toNat = n := by decide

theorem isUnreserved_spec : ∀ n < 256, isUnreserved (UInt8.ofNat n) = true →
    n < 128 ∧ n ≠ 0x2b ∧ n ≠ 0x25 := by decide +kernel

/-- A byte that is escaped is read back. -/
theorem unescape_escapeByte (b : UInt8) (rest : Bytes) :
    unescape (toUtf8 (escapeByte b) ++ rest) = (unescape rest).map (b :: ·) := by
  have hlt : b.toNat < 256 := b.toNat_lt
  unfold escapeByte
  split_ifs with hplain
  · obtain ⟨hascii, hplus, hpercent⟩ := isUnreserved_spec b.toNat hlt (by rwa [UInt8.ofNat_toNat])
    have hchar := ofNat_spec b.toNat hascii
    rw [toUtf8_ascii (by simpa [hchar] using hascii), List.map_singleton, hchar, UInt8.ofNat_toNat,
      List.singleton_append]
    exact unescape_cons rest (fun h => hplus (by rw [h]; rfl)) fun h => hpercent (by rw [h]; rfl)
  · obtain ⟨hhi, hhival⟩ := hexUpper_spec (b.toNat / 16) (by omega)
    obtain ⟨hlo, hloval⟩ := hexUpper_spec (b.toNat % 16) (by omega)
    have hall : ∀ c ∈ ['%', hexUpper (b.toNat / 16), hexUpper (b.toNat % 16)], c.toNat < 128 := by
      intro c hc
      rcases List.mem_cons.mp hc with rfl | hc
      · decide
      · rcases List.mem_cons.mp hc with rfl | hc
        · exact hhi
        · rw [List.mem_singleton.mp hc]
          exact hlo
    rw [toUtf8_ascii hall]
    change unescape (0x25 :: UInt8.ofNat (hexUpper (b.toNat / 16)).toNat ::
      UInt8.ofNat (hexUpper (b.toNat % 16)).toNat :: rest) = _
    have hback : UInt8.ofNat (b.toNat / 16 * 16 + b.toNat % 16) = b := by
      rw [Nat.div_add_mod', UInt8.ofNat_toNat]
    rw [unescape, if_neg (by decide), if_pos rfl, hhival, hloval]
    cases unescape rest with
    | none => rfl
    | some out => exact congrArg (fun x => some (x :: out)) hback

theorem unescape_flatMap : ∀ (bs : Bytes), unescape (toUtf8 (bs.flatMap escapeByte)) = some bs
  | [] => rfl
  | b :: bs => by
    rw [List.flatMap_cons, toUtf8_append, unescape_escapeByte, unescape_flatMap bs]
    rfl

/-- **Words that are written are read back.** -/
theorem percentDecode_percentEncode (text : Text) : percentDecode (percentEncode text) = .ok text := by
  unfold percentDecode percentEncode
  rw [unescape_flatMap, Res.okOr_some, Res.ok_bind, fromUtf8_toUtf8, Res.okOr_some]

theorem unescape_plain : ∀ {bs : Bytes}, (∀ b ∈ bs, b ≠ 0x2b ∧ b ≠ 0x25) → unescape bs = some bs
  | [], _ => rfl
  | b :: bs, h => by
    obtain ⟨hplus, hpercent⟩ := h b List.mem_cons_self
    rw [unescape_cons bs hplus hpercent, unescape_plain fun c hc => h c (List.mem_cons_of_mem b hc)]
    rfl

/-- A text without escapes is itself. -/
theorem percentDecode_plain {s : Text} (h : ∀ c ∈ s, c.toNat < 128 ∧ c ≠ '+' ∧ c ≠ '%') :
    percentDecode s = .ok s := by
  have hbytes : unescape (toUtf8 s) = some (toUtf8 s) := by
    refine unescape_plain fun b hb => ?_
    rw [toUtf8_ascii fun c hc => (h c hc).1, List.mem_map] at hb
    obtain ⟨c, hc, rfl⟩ := hb
    obtain ⟨hascii, hplus, hpercent⟩ := h c hc
    have hval : ∀ n < 128, UInt8.ofNat c.toNat = UInt8.ofNat n → c = Char.ofNat n := by
      intro n hn heq
      have := congrArg UInt8.toNat heq
      rw [UInt8.toNat_ofNat', UInt8.toNat_ofNat', Nat.mod_eq_of_lt (by omega),
        Nat.mod_eq_of_lt (by omega)] at this
      rw [← this, Char.ofNat_toNat]
    exact ⟨fun heq => hplus (hval 0x2b (by decide) heq), fun heq =>
      hpercent (hval 0x25 (by decide) heq)⟩
  unfold percentDecode
  rw [hbytes, Res.okOr_some, Res.ok_bind, fromUtf8_toUtf8, Res.okOr_some]

theorem unescape_eq_nil {bs : Bytes} (h : unescape bs = some []) : bs = [] := by
  cases bs with
  | nil => rfl
  | cons b bytes =>
    rw [unescape.eq_def] at h
    dsimp only at h
    split_ifs at h
    · obtain ⟨_, -, hcons⟩ := Option.map_eq_some_iff.mp h
      cases hcons
    · split at h
      · obtain ⟨_, -, h⟩ := Option.bind_eq_some_iff.mp h
        obtain ⟨_, -, h⟩ := Option.bind_eq_some_iff.mp h
        obtain ⟨_, -, h⟩ := Option.bind_eq_some_iff.mp h
        cases h
      · cases h
    · obtain ⟨_, -, hcons⟩ := Option.map_eq_some_iff.mp h
      cases hcons

theorem toUtf8_eq_nil {s : Text} (h : toUtf8 s = []) : s = [] := by
  have := fromUtf8_toUtf8 s
  rw [h] at this
  exact (Option.some.inj ((fromUtf8_toUtf8 []).symm.trans this)).symm

/-- Only nothing is read as nothing. -/
theorem percentDecode_eq_nil {raw val : Text} (h : percentDecode raw = .ok val) :
    val = [] ↔ raw = [] := by
  constructor
  · intro hval
    unfold percentDecode at h
    obtain ⟨out, hout, h⟩ := Res.bind_eq_ok.mp h
    rw [Res.okOr_eq_ok] at hout h
    have hnil := toUtf8_of_fromUtf8 h
    rw [hval] at hnil
    rw [← hnil] at hout
    exact toUtf8_eq_nil (unescape_eq_nil hout)
  · rintro rfl
    have := percentDecode_percentEncode []
    rw [show percentEncode [] = [] from rfl, h, Res.ok.injEq] at this
    exact this

/-! ### What a written value is made of -/

/-- Neither white space nor a mark that parts a request. -/
def isValueChar (c : Char) : Bool := !(['&', '=', '#', '?'].contains c || jsSpace c)

theorem escapeByte_isValueChar : ∀ n < 256, (escapeByte (UInt8.ofNat n)).all isValueChar = true := by
  decide +kernel

theorem percentEncode_isValueChar (text : Text) : (percentEncode text).all isValueChar = true := by
  unfold percentEncode
  rw [List.all_flatMap, List.all_eq_true]
  intro b _
  have := escapeByte_isValueChar b.toNat b.toNat_lt
  rwa [UInt8.ofNat_toNat] at this

theorem percentEncode_ne_nil {text : Text} (h : text ≠ []) : percentEncode text ≠ [] := fun hnil => by
  have := percentDecode_percentEncode text
  exact h ((percentDecode_eq_nil this).mpr hnil)

end Wallet

end Sidestr
