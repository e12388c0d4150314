/-
# Canonical JSON

Two writers of canonical JSON. The reserve's (`lib.rs`) refuses what
implementations could write differently: numbers that are not safe integers, and
texts that need an escape. The teller's (`ledger.rs`) writes everything. Where the
first writes, the text reads back as the value (`parseJson_canonicalize`) and the
second writes the same (`jcs_eq_canonicalize`): the two orders of keys, by bytes
and by UTF-16 units, are one on the texts that are left.

Key definitions: `escapeFree`, `writeCanonical`, `canonicalize`, `writeJcs`.
Key theorems: `writeCanonical_obj`, `parseValue_written`, `parseJson_canonicalize`,
`writeJcs_written`.
-/
import Sidestr.Core.Json
import Sidestr.Lib.Outcome

namespace Sidestr

namespace Reserve

/-- The largest integer of a JSON number. -/
def maxSafeInteger : ℕ := 2 ^ 53 - 1

/-- What is outside the canonical subset. -/
inductive CanonReason
  | above (n : ℕ)
  | below (n : ℕ)
  | notInteger
  | text (s : Bytes)
  | key (k : Bytes)
  deriving DecidableEq

/-- Where in the value, and what. -/
structure CanonError where
  path : Bytes
  reason : CanonReason
  deriving DecidableEq

/-- Printable ASCII that needs no escape. -/
def escapeFree (s : Bytes) : Bool :=
  s.all fun b => decide (0x20 ≤ b.toNat ∧ b.toNat ≤ 0x7e) && b != 0x22 && b != 0x5c

/-- Pieces with commas between them. -/
def commaSep : List Bytes → Bytes
  | [] => []
  | [a] => a
  | a :: b :: l => a ++ 0x2c :: commaSep (b :: l)

def quote (s : Bytes) : Bytes := 0x22 :: (s ++ [0x22])

/-- The fields' texts in order, up to the first that fails. -/
def allOk : List (Bytes × Res CanonError Bytes) → Res CanonError (List (Bytes × Bytes))
  | [] => .ok []
  | (k, r) :: rest => do
    let text ← r
    let texts ← allOk rest
    .ok ((k, text) :: texts)

/-- A field as it is written: its key in quotes, a colon, its value. -/
def fieldText (key value : Bytes) : Bytes := key ++ 0x3a :: value

section

variable {F : Type}

mutual

def writeCanonical (path : Bytes) : Json F → Res CanonError Bytes
  | .null => .ok (ascii ['n', 'u', 'l', 'l'])
  | .bool b => .ok (if b then ascii ['t', 'r', 'u', 'e'] else ascii ['f', 'a', 'l', 's', 'e'])
  | .posInt n => do
    Res.refuseIf (decide (maxSafeInteger < n.toNat)) ⟨path, .above n.toNat⟩
    .ok (decimalText n.toNat)
  | .negInt n => do
    Res.refuseIf (decide (maxSafeInteger < n.val)) ⟨path, .below n.val⟩
    .ok (0x2d :: decimalText n.val)
  | .float _ => .err ⟨path, .notInteger⟩
  | .str s => do
    Res.refuseIf (!escapeFree s) ⟨path, .text s⟩
    .ok (quote s)
  | .arr items => do
    let texts ← writeItems path 0 items
    .ok (0x5b :: (commaSep texts ++ [0x5d]))
  | .obj fields =>
    match fields.find? fun f => !escapeFree f.1 with
    | some f => .err ⟨path, .key f.1⟩
    | none => do
      let texts ← allOk (sortFields byteUnits (fieldTexts path fields))
      .ok (0x7b :: (commaSep (texts.map fun t => fieldText (quote t.1) t.2) ++ [0x7d]))

def writeItems (path : Bytes) (i : ℕ) : List (Json F) → Res CanonError (List Bytes)
  | [] => .ok []
  | v :: items => do
    let text ← writeCanonical (path ++ 0x5b :: (decimalText i ++ [0x5d])) v
    let texts ← writeItems path (i + 1) items
    .ok (text :: texts)

def fieldTexts (path : Bytes) : List (Bytes × Json F) → List (Bytes × Res CanonError Bytes)
  | [] => []
  | (k, v) :: fields => (k, writeCanonical (path ++ 0x2e :: k) v) :: fieldTexts path fields

end

/-- The canonical text of a value in the subset. -/
def canonicalize (v : Json F) : Res CanonError Bytes := writeCanonical [0x24] v

/-! ### The teller's writer -/

/-- The UTF-16 units of a UTF-8 text. -/
def utf16Units : Bytes → List ℕ
  | [] => []
  | a :: rest =>
    if a.toNat < 0x80 then a.toNat :: utf16Units rest
    else match rest with
    | [] => []
    | b :: rest =>
      if a.toNat < 0xe0 then (a.toNat % 0x20 * 0x40 + b.toNat % 0x40) :: utf16Units rest
      else match rest with
      | [] => []
      | c :: rest =>
        if a.toNat < 0xf0 then
          (a.toNat % 0x10 * 0x1000 + b.toNat % 0x40 * 0x40 + c.toNat % 0x40) :: utf16Units rest
        else match rest with
        | [] => []
        | d :: rest =>
          let n := a.toNat % 0x08 * 0x40000 + b.toNat % 0x40 * 0x1000 + c.toNat % 0x40 * 0x40 +
            d.toNat % 0x40 - 0x10000
          (0xd800 + n / 0x400) :: (0xdc00 + n % 0x400) :: utf16Units rest

/-- A byte of a string as `serde_json` writes it. -/
def writeByte (b : UInt8) : Bytes :=
  if b = 0x22 then [0x5c, 0x22]
  else if b = 0x5c then [0x5c, 0x5c]
  else if b = 0x08 then [0x5c, 0x62]
  else if b = 0x0c then [0x5c, 0x66]
  else if b = 0x0a then [0x5c, 0x6e]
  else if b = 0x0d then [0x5c, 0x72]
  else if b = 0x09 then [0x5c, 0x74]
  else if b.toNat < 0x20 then 0x5c :: 0x75 :: 0x30 :: 0x30 :: hexEncode [b]
  else [b]

def writeString (s : Bytes) : Bytes := 0x22 :: (s.flatMap writeByte ++ [0x22])

variable [FloatText F]

mutual

def writeJcs : Json F → Bytes
  | .obj fields =>
    0x7b :: (commaSep ((sortFields utf16Units (jcsTexts fields)).map fun t =>
      fieldText (writeString t.1) t.2) ++ [0x7d])
  | .arr items => 0x5b :: (commaSep (jcsItems items) ++ [0x5d])
  | .null => ascii ['n', 'u', 'l', 'l']
  | .bool b => if b then ascii ['t', 'r', 'u', 'e'] else ascii ['f', 'a', 'l', 's', 'e']
  | .posInt n => decimalText n.toNat
  | .negInt n => 0x2d :: decimalText n.val
  | .float f => FloatText.write f
  | .str s => writeString s

def jcsItems : List (Json F) → List Bytes
  | [] => []
  | v :: items => writeJcs v :: jcsItems items

def jcsTexts : List (Bytes × Json F) → List (Bytes × Bytes)
  | [] => []
  | (k, v) :: fields => (k, writeJcs v) :: jcsTexts fields

end

/-- The teller's canonical text. -/
def jcs (v : Json F) : Bytes := writeJcs v

/-! ### What is written -/

/-- The canonical subset. -/
inductive Plain : Json F → Prop
  | null : Plain .null
  | bool (b : Bool) : Plain (.bool b)
  | posInt (n : UInt64) (h : n.toNat ≤ maxSafeInteger) : Plain (.posInt n)
  | negInt (n : { n : ℕ // 0 < n ∧ n ≤ 2 ^ 63 }) (h : n.val ≤ maxSafeInteger) : Plain (.negInt n)
  | str (s : Bytes) (h : escapeFree s = true) : Plain (.str s)
  | arr (items : List (Json F)) (h : ∀ v ∈ items, Plain v) : Plain (.arr items)
  | obj (fields : List (Bytes × Json F)) (keys : ∀ f ∈ fields, escapeFree f.1 = true)
      (values : ∀ f ∈ fields, Plain f.2) : Plain (.obj fields)

theorem escapeFree_byte {s : Bytes} (h : escapeFree s = true) {b : UInt8} (hb : b ∈ s) :
    0x20 ≤ b.toNat ∧ b.toNat ≤ 0x7e ∧ b ≠ 0x22 ∧ b ≠ 0x5c := by
  have hall := List.all_eq_true.mp h b hb
  rw [Bool.and_eq_true, Bool.and_eq_true, decide_eq_true_eq, bne_iff_ne, bne_iff_ne] at hall
  exact ⟨hall.1.1.1, hall.1.1.2, hall.1.2, hall.2⟩

/-- A text that needs no escape is written as it is. -/
theorem writeString_plain {s : Bytes} (h : escapeFree s = true) : writeString s = quote s := by
  have hbyte : ∀ b ∈ s, writeByte b = [b] := by
    intro b hb
    obtain ⟨hlow, -, hquote, hslash⟩ := escapeFree_byte h hb
    have hne : ∀ c : UInt8, c.toNat < 0x20 → b ≠ c := by
      rintro c hc rfl
      omega
    unfold writeByte
    rw [if_neg hquote, if_neg hslash, if_neg (hne _ (by decide)), if_neg (hne _ (by decide)),
      if_neg (hne _ (by decide)), if_neg (hne _ (by decide)), if_neg (hne _ (by decide)),
      if_neg (Nat.not_lt.mpr hlow)]
  have hflat : s.flatMap writeByte = s := by
    rw [List.flatMap_congr hbyte, List.flatMap_singleton']
  unfold writeString quote
  rw [hflat]

/-- On such a text the two orders are one. -/
theorem utf16Units_plain : ∀ {s : Bytes}, escapeFree s = true → utf16Units s = byteUnits s
  | [], _ => by rw [utf16Units]; rfl
  | a :: s, h => by
    have ha := (escapeFree_byte h List.mem_cons_self).2.1
    have hs : escapeFree s = true := (Bool.and_eq_true _ _ ▸ h : _ ∧ _).2
    have hstep : utf16Units (a :: s) = a.toNat :: utf16Units s := by
      rw [utf16Units.eq_def]
      exact if_pos (by omega)
    rw [hstep, utf16Units_plain hs]
    rfl

omit [FloatText F] in
theorem fieldTexts_eq (path : Bytes) (fields : List (Bytes × Json F)) :
    fieldTexts path fields =
      fields.map fun f => (f.1, writeCanonical (path ++ 0x2e :: f.1) f.2) := by
  induction fields with
  | nil => rw [fieldTexts, List.map_nil]
  | cons f fields ih => rw [fieldTexts, ih, List.map_cons]

theorem jcsItems_eq (items : List (Json F)) : jcsItems items = items.map writeJcs := by
  induction items with
  | nil => rw [jcsItems, List.map_nil]
  | cons v items ih => rw [jcsItems, ih, List.map_cons]

theorem jcsTexts_eq (fields : List (Bytes × Json F)) :
    jcsTexts fields = fields.map fun f => (f.1, writeJcs f.2) := by
  induction fields with
  | nil => rw [jcsTexts, List.map_nil]
  | cons f fields ih => rw [jcsTexts, ih, List.map_cons]

/-- An object of plain keys as the teller writes it: the fields by their bytes. -/
theorem writeJcs_obj {fields : List (Bytes × Json F)} (h : ∀ f ∈ fields, escapeFree f.1 = true) :
    writeJcs (.obj fields) = 0x7b :: (commaSep ((sortFields byteUnits fields).map fun f =>
      fieldText (quote f.1) (writeJcs f.2)) ++ [0x7d]) := by
  have hsort : sortFields utf16Units fields = sortFields byteUnits fields :=
    sortFields_congr fun f hf => utf16Units_plain (h f hf)
  have hquote : (sortFields byteUnits fields).map (fun f => fieldText (writeString f.1) (writeJcs f.2)) =
      (sortFields byteUnits fields).map fun f => fieldText (quote f.1) (writeJcs f.2) := by
    apply List.map_congr_left
    intro f hf
    rw [writeString_plain (h f ((sortFields_perm byteUnits fields).mem_iff.mp hf))]
  rw [writeJcs, jcsTexts_eq, sortFields_map utf16Units fun _ v => writeJcs v, List.map_map, hsort,
    ← hquote]
  rfl

/-- What one value's writing says: it is plain, and the teller writes the same. -/
def Agrees (v : Json F) : Prop :=
  ∀ path s, writeCanonical path v = .ok s → Plain v ∧ s = writeJcs v

theorem writeItems_ok {path : Bytes} : ∀ {items : List (Json F)} {i : ℕ} {texts : List Bytes},
    (∀ v ∈ items, Agrees v) → writeItems path i items = .ok texts →
    (∀ v ∈ items, Plain v) ∧ texts = items.map writeJcs
  | [], _, _, _, h => by
    rw [writeItems, Res.ok.injEq] at h
    exact ⟨fun _ hv => absurd hv List.not_mem_nil, h.symm⟩
  | v :: items, i, texts, hall, h => by
    rw [writeItems] at h
    obtain ⟨text, htext, h⟩ := Res.bind_eq_ok.mp h
    obtain ⟨rest, hrest, h⟩ := Res.bind_eq_ok.mp h
    obtain ⟨hplain, hsame⟩ := hall v List.mem_cons_self _ _ htext
    obtain ⟨hplains, hsames⟩ := writeItems_ok (fun w hw => hall w (List.mem_cons_of_mem _ hw)) hrest
    rw [Res.ok.injEq] at h
    refine ⟨fun w hw => ?_, by rw [← h, hsame, hsames, List.map_cons]⟩
    rcases List.mem_cons.mp hw with rfl | hw
    · exact hplain
    · exact hplains w hw

theorem allOk_ok {path : Bytes} : ∀ {fields : List (Bytes × Json F)} {texts : List (Bytes × Bytes)},
    (∀ f ∈ fields, Agrees f.2) →
    allOk (fields.map fun f => (f.1, writeCanonical (path ++ 0x2e :: f.1) f.2)) = .ok texts →
    (∀ f ∈ fields, Plain f.2) ∧ texts = fields.map fun f => (f.1, writeJcs f.2)
  | [], _, _, h => by
    rw [List.map_nil, allOk, Res.ok.injEq] at h
    exact ⟨fun _ hf => absurd hf List.not_mem_nil, h.symm⟩
  | f :: fields, texts, hall, h => by
    rw [List.map_cons, allOk] at h
    obtain ⟨text, htext, h⟩ := Res.bind_eq_ok.mp h
    obtain ⟨rest, hrest, h⟩ := Res.bind_eq_ok.mp h
    obtain ⟨hplain, hsame⟩ := hall f List.mem_cons_self _ _ htext
    obtain ⟨hplains, hsames⟩ := allOk_ok (fun g hg => hall g (List.mem_cons_of_mem _ hg)) hrest
    rw [Res.ok.injEq] at h
    refine ⟨fun g hg => ?_, by rw [← h, hsame, hsames, List.map_cons]⟩
    rcases List.mem_cons.mp hg with rfl | hg
    · exact hplain
    · exact hplains g hg

/-- **Where the reserve writes, the teller writes the same.** -/
theorem agrees (v : Json F) : Agrees v := by
  induction v using Json.induct with
  | null =>
    intro path s h
    rw [writeCanonical, Res.ok.injEq] at h
    exact ⟨.null, by rw [writeJcs, h]⟩
  | bool b =>
    intro path s h
    rw [writeCanonical, Res.ok.injEq] at h
    exact ⟨.bool b, by rw [writeJcs, h]⟩
  | posInt n =>
    intro path s h
    rw [writeCanonical] at h
    obtain ⟨_, hsafe, h⟩ := Res.bind_eq_ok.mp h
    rw [Res.refuseIf_eq_ok, decide_eq_false_iff_not, Nat.not_lt] at hsafe
    rw [Res.ok.injEq] at h
    exact ⟨.posInt n hsafe, by rw [writeJcs, h]⟩
  | negInt n =>
    intro path s h
    rw [writeCanonical] at h
    obtain ⟨_, hsafe, h⟩ := Res.bind_eq_ok.mp h
    rw [Res.refuseIf_eq_ok, decide_eq_false_iff_not, Nat.not_lt] at hsafe
    rw [Res.ok.injEq] at h
    exact ⟨.negInt n hsafe, by rw [writeJcs, h]⟩
  | float f =>
    intro path s h
    rw [writeCanonical] at h
    cases h
  | str t =>
    intro path s h
    rw [writeCanonical] at h
    obtain ⟨_, hfree, h⟩ := Res.bind_eq_ok.mp h
    rw [Res.refuseIf_eq_ok, Bool.not_eq_false'] at hfree
    rw [Res.ok.injEq] at h
    exact ⟨.str t hfree, by rw [writeJcs, writeString_plain hfree, h]⟩
  | arr items ih =>
    intro path s h
    rw [writeCanonical] at h
    obtain ⟨texts, htexts, h⟩ := Res.bind_eq_ok.mp h
    obtain ⟨hplain, hsame⟩ := writeItems_ok ih htexts
    rw [Res.ok.injEq] at h
    exact ⟨.arr items hplain, by rw [writeJcs, jcsItems_eq, ← hsame, h]⟩
  | obj fields ih =>
    intro path s h
    rw [writeCanonical] at h
    split at h
    · cases h
    · rename_i hfind
      have hkeys : ∀ f ∈ fields, escapeFree f.1 = true := by
        intro f hf
        have hnot := List.find?_eq_none.mp hfind f hf
        rwa [Bool.not_eq_true, Bool.not_eq_false'] at hnot
      obtain ⟨texts, htexts, h⟩ := Res.bind_eq_ok.mp h
      have hperm := sortFields_perm byteUnits fields
      rw [fieldTexts_eq, sortFields_map byteUnits fun k v => writeCanonical (path ++ 0x2e :: k) v]
        at htexts
      obtain ⟨hplain, hsame⟩ := allOk_ok (fun f hf => ih f (hperm.mem_iff.mp hf)) htexts
      rw [Res.ok.injEq] at h
      refine ⟨.obj fields hkeys fun f hf => hplain f (hperm.mem_iff.mpr hf), ?_⟩
      rw [writeJcs_obj hkeys, ← h, hsame, List.map_map]
      rfl

/-! ### Reading it back -/

/-- What follows a value: no byte of a number. -/
def NumberEnds (rest : Bytes) : Prop := ∀ b ∈ rest.head?, isNumberByte b = false

/-- The text is read as the value in front of whatever ends a number. -/
def Reads (text : Bytes) (v : Json F) : Prop :=
  ∀ fuel rest, text.length ≤ fuel → NumberEnds rest → parseValue fuel (text ++ rest) = some (v, rest)

omit [FloatText F] in
theorem skipSpace_cons {b : UInt8} {s : Bytes} (h : isJsonSpace b = false) :
    skipSpace (b :: s) = b :: s := by
  unfold skipSpace
  rw [List.dropWhile_cons_of_neg]
  rw [h]
  exact Bool.false_ne_true

theorem parseValue_cons {fuel : ℕ} {b : UInt8} {s : Bytes} (h : isJsonSpace b = false) :
    (parseValue (fuel + 1) (b :: s) : Option (Json F × Bytes)) =
      if b = 0x22 then (parseString s).map fun p => (.str p.1, p.2)
      else if b = 0x5b then
        if (skipSpace s).head? = some 0x5d then some (.arr [], (skipSpace s).tail)
        else (parseItems fuel s).map fun p => (.arr p.1, p.2)
      else if b = 0x7b then
        if (skipSpace s).head? = some 0x7d then some (.obj [], (skipSpace s).tail)
        else (parseFields fuel s).map fun p => (.obj p.1, p.2)
      else parseScalar (b :: s) := by
  rw [parseValue, skipSpace_cons h]

theorem parseValue_scalar {fuel : ℕ} {b : UInt8} {s : Bytes} (h : isJsonSpace b = false)
    (h₁ : b ≠ 0x22) (h₂ : b ≠ 0x5b) (h₃ : b ≠ 0x7b) :
    (parseValue (fuel + 1) (b :: s) : Option (Json F × Bytes)) = parseScalar (b :: s) := by
  rw [parseValue_cons h, if_neg h₁, if_neg h₂, if_neg h₃]

/-- A byte a number starts with. -/
theorem numberStart {b : UInt8} (h : isDigit b = true ∨ b = 0x2d) :
    isJsonSpace b = false ∧ b ≠ 0x22 ∧ b ≠ 0x5b ∧ b ≠ 0x7b ∧ b ≠ 0x6e ∧ b ≠ 0x74 ∧ b ≠ 0x66 := by
  rcases h with h | rfl
  · unfold isDigit at h
    rw [Bool.and_eq_true, decide_eq_true_eq, decide_eq_true_eq] at h
    have hne : ∀ c : UInt8, c.toNat < 0x30 ∨ 0x39 < c.toNat → b ≠ c := by
      rintro c hc rfl
      omega
    refine ⟨?_, hne _ (by decide), hne _ (by decide), hne _ (by decide), hne _ (by decide),
      hne _ (by decide), hne _ (by decide)⟩
    unfold isJsonSpace
    rw [beq_eq_false_iff_ne.mpr (hne _ (by decide)), beq_eq_false_iff_ne.mpr (hne _ (by decide)),
      beq_eq_false_iff_ne.mpr (hne _ (by decide)), beq_eq_false_iff_ne.mpr (hne _ (by decide))]
    rfl
  · decide

theorem stripPrefix_cons_ne {x y : UInt8} {p l : Bytes} (h : x ≠ y) :
    stripPrefix (x :: p) (y :: l) = none := if_neg h

/-- A number's text is read as the number. -/
theorem reads_number {run : Bytes} {v : Json F} {b : UInt8} {s : Bytes} (hrun : run = b :: s)
    (hstart : isDigit b = true ∨ b = 0x2d) (hall : ∀ x ∈ run, isNumberByte x = true)
    (hread : readNumber run = some v) : Reads run v := by
  intro fuel rest hfuel hend
  obtain ⟨hspace, h1, h2, h3, h4, h5, h6⟩ := numberStart hstart
  obtain ⟨k, rfl⟩ : ∃ k, fuel = k + 1 := by
    rw [hrun, List.length_cons] at hfuel
    exact ⟨fuel - 1, by omega⟩
  have htake : (run ++ rest).takeWhile isNumberByte = run := by
    rw [List.takeWhile_append_of_pos hall]
    cases rest with
    | nil => rw [List.takeWhile_nil, List.append_nil]
    | cons c rest =>
      rw [List.takeWhile_cons_of_neg, List.append_nil]
      rw [hend c rfl]
      exact Bool.false_ne_true
  have hdrop : (run ++ rest).dropWhile isNumberByte = rest := by
    rw [List.dropWhile_append_of_pos hall]
    cases rest with
    | nil => rfl
    | cons c rest =>
      rw [List.dropWhile_cons_of_neg]
      rw [hend c rfl]
      exact Bool.false_ne_true
  have hscalar : parseScalar (run ++ rest) = some (v, rest) := by
    have hnull : stripPrefix (ascii ['n', 'u', 'l', 'l']) (run ++ rest) = none := by
      rw [hrun]
      exact stripPrefix_cons_ne h4.symm
    have htrue : stripPrefix (ascii ['t', 'r', 'u', 'e']) (run ++ rest) = none := by
      rw [hrun]
      exact stripPrefix_cons_ne h5.symm
    have hfalse : stripPrefix (ascii ['f', 'a', 'l', 's', 'e']) (run ++ rest) = none := by
      rw [hrun]
      exact stripPrefix_cons_ne h6.symm
    unfold parseScalar
    rw [hnull, htrue, hfalse, htake, hdrop, hread]
    rfl
  rw [← hscalar, hrun, List.cons_append, parseValue_scalar hspace h1 h2 h3]

theorem isPlainDecimal_decimalText (n : ℕ) : isPlainDecimal (decimalText n) = true := by
  unfold isPlainDecimal
  rw [decimalText_digits, decimal_decimalText, beq_self_eq_true]
  rfl

theorem isNumberByte_of_digit {b : UInt8} (h : isDigit b = true) : isNumberByte b = true := by
  unfold isNumberByte
  rw [h]
  rfl

theorem decimalText_cons (n : ℕ) : ∃ b s, decimalText n = b :: s ∧ isDigit b = true := by
  obtain ⟨b, s, h⟩ := List.exists_cons_of_ne_nil (decimalText_ne_nil n)
  have hall := decimalText_digits n
  rw [h, List.all_cons, Bool.and_eq_true] at hall
  exact ⟨b, s, h, hall.1⟩

theorem reads_posInt (n : UInt64) : Reads (F := F) (decimalText n.toNat) (.posInt n) := by
  obtain ⟨b, s, hcons, hb⟩ := decimalText_cons n.toNat
  refine reads_number hcons (.inl hb)
    (fun x hx => isNumberByte_of_digit (List.all_eq_true.mp (decimalText_digits _) x hx)) ?_
  have hsign : b ≠ 0x2d := by
    rintro rfl
    exact absurd hb (by decide)
  have hplain := isPlainDecimal_decimalText n.toNat
  have hvalue := decimal_decimalText n.toNat
  unfold readNumber
  rw [hcons] at hplain hvalue ⊢
  dsimp only
  rw [if_neg hsign, if_pos ⟨hplain, by rw [hvalue]; exact n.toNat_lt⟩, hvalue, UInt64.ofNat_toNat]

theorem reads_negInt (n : { n : ℕ // 0 < n ∧ n ≤ 2 ^ 63 }) :
    Reads (F := F) (0x2d :: decimalText n.val) (.negInt n) := by
  refine reads_number rfl (.inr rfl) (fun x hx => ?_) ?_
  · rcases List.mem_cons.mp hx with rfl | hx
    · decide
    · exact isNumberByte_of_digit (List.all_eq_true.mp (decimalText_digits _) x hx)
  · have hvalue := decimal_decimalText n.val
    have hcond : isPlainDecimal (decimalText n.val) = true ∧ 0 < decimal (decimalText n.val) ∧
        decimal (decimalText n.val) ≤ 2 ^ 63 := by
      rw [hvalue]
      exact ⟨isPlainDecimal_decimalText _, n.property⟩
    unfold readNumber
    dsimp only
    rw [if_pos rfl, dif_pos hcond]
    simp only [hvalue]

/-! #### Strings -/

theorem stringBody_plain : ∀ {s : Bytes} {rest : Bytes}, escapeFree s = true →
    stringBody (s ++ 0x22 :: rest) = some (s, rest)
  | [], [], _ => rfl
  | [], _ :: _, _ => rfl
  | b :: s, rest, h => by
    obtain ⟨hlow, -, hquote, hslash⟩ := escapeFree_byte h List.mem_cons_self
    have hs : escapeFree s = true := (Bool.and_eq_true _ _ ▸ h : _ ∧ _).2
    have ih : stringBody (s ++ 0x22 :: rest) = some (s, rest) := stringBody_plain hs
    obtain ⟨c, r, hr⟩ : ∃ c r, s ++ 0x22 :: rest = c :: r := by
      cases s with
      | nil => exact ⟨_, _, rfl⟩
      | cons c s => exact ⟨_, _, rfl⟩
    rw [hr] at ih
    rw [List.cons_append, hr, stringBody, if_neg hquote, if_neg hslash, if_neg (Nat.not_lt.mpr hlow),
      ih]
    rfl

theorem unescape_cons {b : UInt8} {s : Bytes} (h : b ≠ 0x5c) :
    unescape (b :: s) = (unescape s).map (b :: ·) := by
  rw [unescape.eq_def]
  split
  · rename_i hc
    cases hc
  · rename_i hc
    exact absurd (List.cons.inj hc).1 h
  · rename_i hc
    exact absurd (List.cons.inj hc).1 h
  · rename_i hc
    exact absurd (List.cons.inj hc).1 h
  · rename_i hc
    obtain ⟨rfl, rfl⟩ := List.cons.inj hc
    rw [if_neg h]

theorem unescape_plain : ∀ {s : Bytes}, escapeFree s = true → unescape s = some s
  | [], _ => by rw [unescape]
  | b :: s, h => by
    have hslash := (escapeFree_byte h List.mem_cons_self).2.2.2
    have hs : escapeFree s = true := (Bool.and_eq_true _ _ ▸ h : _ ∧ _).2
    rw [unescape_cons hslash, unescape_plain hs]
    rfl

theorem parseString_plain {s rest : Bytes} (h : escapeFree s = true) :
    parseString (s ++ 0x22 :: rest) = some (s, rest) := by
  unfold parseString
  rw [stringBody_plain h]
  change (unescape s).bind (fun text => some (text, rest)) = _
  rw [unescape_plain h]
  rfl

theorem reads_str {s : Bytes} (h : escapeFree s = true) : Reads (F := F) (quote s) (.str s) := by
  intro fuel rest hfuel _
  obtain ⟨k, rfl⟩ : ∃ k, fuel = k + 1 := by
    unfold quote at hfuel
    rw [List.length_cons] at hfuel
    exact ⟨fuel - 1, by omega⟩
  have htext : quote s ++ rest = 0x22 :: (s ++ 0x22 :: rest) := by
    unfold quote
    rw [List.cons_append, List.append_assoc]
    rfl
  rw [htext, parseValue_cons (by decide), if_pos rfl, parseString_plain h]
  rfl

/-! #### Arrays and objects -/

/-- A plain value's text starts with no space and no closing bracket. -/
theorem writeJcs_head {v : Json F} (h : Plain v) : ∃ b s, writeJcs v = b :: s ∧
    isJsonSpace b = false ∧ b ≠ 0x5d := by
  cases h with
  | null => exact ⟨0x6e, ascii ['u', 'l', 'l'], by rw [writeJcs]; rfl, by decide, by decide⟩
  | bool b =>
    cases b with
    | true => exact ⟨0x74, ascii ['r', 'u', 'e'], by rw [writeJcs]; rfl, by decide, by decide⟩
    | false => exact ⟨0x66, ascii ['a', 'l', 's', 'e'], by rw [writeJcs]; rfl, by decide, by decide⟩
  | posInt n h =>
    obtain ⟨b, s, hcons, hb⟩ := decimalText_cons n.toNat
    refine ⟨b, s, by rw [writeJcs, hcons], (numberStart (.inl hb)).1, ?_⟩
    rintro rfl
    exact absurd hb (by decide)
  | negInt n h => exact ⟨0x2d, decimalText n.val, by rw [writeJcs], by decide, by decide⟩
  | str s h => exact ⟨0x22, s.flatMap writeByte ++ [0x22], by rw [writeJcs]; rfl, by decide, by decide⟩
  | arr items h => exact ⟨0x5b, commaSep (jcsItems items) ++ [0x5d], by rw [writeJcs], by decide, by decide⟩
  | obj fields keys values => exact ⟨0x7b, _, by rw [writeJcs], by decide, by decide⟩

theorem numberEnds_comma (s : Bytes) : NumberEnds (0x2c :: s) := by
  intro b hb
  cases hb
  decide

theorem numberEnds_bracket (s : Bytes) : NumberEnds (0x5d :: s) := by
  intro b hb
  cases hb
  decide

theorem numberEnds_brace (s : Bytes) : NumberEnds (0x7d :: s) := by
  intro b hb
  cases hb
  decide

/-- The items of an array are read one by one. -/
theorem parseItems_written {rest : Bytes} : ∀ {items : List (Json F)} {fuel : ℕ}, items ≠ [] →
    (∀ v ∈ items, Reads (writeJcs v) v.sortKeys) →
    (commaSep (items.map writeJcs)).length + 1 ≤ fuel →
    parseItems fuel (commaSep (items.map writeJcs) ++ 0x5d :: rest) =
      some (items.map Json.sortKeys, rest)
  | [], _, hne, _, _ => absurd rfl hne
  | [v], fuel, _, hall, hfuel => by
    obtain ⟨k, rfl⟩ : ∃ k, fuel = k + 1 := ⟨fuel - 1, by omega⟩
    rw [List.map_singleton, commaSep] at hfuel ⊢
    have hv := hall v List.mem_cons_self k (0x5d :: rest) (by omega) (numberEnds_bracket rest)
    rw [parseItems, hv]
    simp only [Option.bind_eq_bind, Option.bind_some]
    rw [skipSpace_cons (by decide)]
    rfl
  | v :: w :: items, fuel, _, hall, hfuel => by
    obtain ⟨k, rfl⟩ : ∃ k, fuel = k + 1 := ⟨fuel - 1, by omega⟩
    have hsplit : commaSep ((v :: w :: items).map writeJcs) =
        writeJcs v ++ 0x2c :: commaSep ((w :: items).map writeJcs) := rfl
    rw [hsplit] at hfuel ⊢
    rw [List.length_append, List.length_cons] at hfuel
    have hmore := @parseItems_written rest (w :: items) k (List.cons_ne_nil w items)
      (fun x hx => hall x (List.mem_cons_of_mem _ hx)) (by omega)
    have hv := hall v List.mem_cons_self k
      (0x2c :: (commaSep ((w :: items).map writeJcs) ++ 0x5d :: rest)) (by omega)
      (numberEnds_comma _)
    rw [List.append_assoc, List.cons_append, parseItems, hv]
    simp only [Option.bind_eq_bind, Option.bind_some]
    rw [skipSpace_cons (by decide)]
    dsimp only
    rw [if_pos rfl, hmore]
    rfl

/-- A field's text: its key in quotes, a colon, its value. -/
theorem parseFields_step {k : Bytes} {v : Json F} {fuel : ℕ} {tail : Bytes}
    (hk : escapeFree k = true) (hv : Reads (writeJcs v) v.sortKeys)
    (hfuel : (writeJcs v).length ≤ fuel) (hend : NumberEnds tail) :
    (parseFields (fuel + 1) (fieldText (quote k) (writeJcs v) ++ tail) :
      Option (List (Bytes × Json F) × Bytes)) =
      match skipSpace tail with
      | [] => none
      | b :: rest =>
        if b = 0x2c then (parseFields fuel rest).map fun p => ((k, v.sortKeys) :: p.1, p.2)
        else if b = 0x7d then some ([(k, v.sortKeys)], rest)
        else none := by
  have htext : fieldText (quote k) (writeJcs v) ++ tail =
      0x22 :: (k ++ 0x22 :: 0x3a :: (writeJcs v ++ tail)) := by
    unfold fieldText quote
    simp only [List.cons_append, List.append_assoc, List.nil_append]
  rw [htext, parseFields, skipSpace_cons (by decide)]
  dsimp only
  rw [if_neg (by decide), parseString_plain hk]
  simp only [Option.bind_eq_bind, Option.bind_some]
  rw [skipSpace_cons (by decide)]
  dsimp only
  rw [if_neg (by decide), hv fuel tail hfuel hend]
  rfl

/-- The fields of an object are read one by one. -/
theorem parseFields_written {rest : Bytes} : ∀ {fields : List (Bytes × Json F)} {fuel : ℕ},
    fields ≠ [] → (∀ f ∈ fields, escapeFree f.1 = true) →
    (∀ f ∈ fields, Reads (writeJcs f.2) f.2.sortKeys) →
    (commaSep (fields.map fun f => fieldText (quote f.1) (writeJcs f.2))).length + 1 ≤ fuel →
    parseFields fuel (commaSep (fields.map fun f => fieldText (quote f.1) (writeJcs f.2)) ++
      0x7d :: rest) = some (fields.map fun f => (f.1, f.2.sortKeys), rest)
  | [], _, hne, _, _, _ => absurd rfl hne
  | [f], fuel, _, hkeys, hall, hfuel => by
    obtain ⟨k, rfl⟩ : ∃ k, fuel = k + 1 := ⟨fuel - 1, by omega⟩
    rw [List.map_singleton, commaSep] at hfuel ⊢
    unfold fieldText at hfuel
    rw [List.length_append, List.length_cons] at hfuel
    rw [parseFields_step (hkeys f List.mem_cons_self) (hall f List.mem_cons_self) (by omega)
      (numberEnds_brace rest), skipSpace_cons (by decide)]
    rfl
  | f :: g :: fields, fuel, _, hkeys, hall, hfuel => by
    obtain ⟨k, rfl⟩ : ∃ k, fuel = k + 1 := ⟨fuel - 1, by omega⟩
    have hsplit : commaSep ((f :: g :: fields).map fun f => fieldText (quote f.1) (writeJcs f.2)) =
        fieldText (quote f.1) (writeJcs f.2) ++
          0x2c :: commaSep ((g :: fields).map fun f => fieldText (quote f.1) (writeJcs f.2)) := rfl
    rw [hsplit] at hfuel ⊢
    rw [List.length_append, List.length_cons] at hfuel
    have hpart : (fieldText (quote f.1) (writeJcs f.2)).length =
        (quote f.1).length + ((writeJcs f.2).length + 1) := by
      unfold fieldText
      rw [List.length_append, List.length_cons]
    have hmore := @parseFields_written rest (g :: fields) k (List.cons_ne_nil g fields)
      (fun x hx => hkeys x (List.mem_cons_of_mem _ hx))
      (fun x hx => hall x (List.mem_cons_of_mem _ hx)) (by omega)
    rw [List.append_assoc, List.cons_append, parseFields_step (hkeys f List.mem_cons_self)
      (hall f List.mem_cons_self) (by omega) (numberEnds_comma _), skipSpace_cons (by decide)]
    dsimp only
    rw [if_pos rfl, hmore]
    rfl

theorem reads_null : Reads (writeJcs (.null : Json F)) (Json.null : Json F).sortKeys := by
  rw [writeJcs, Json.sortKeys]
  intro fuel rest hfuel _
  obtain ⟨k, rfl⟩ : ∃ k, fuel = k + 1 := ⟨fuel - 1, by have : 4 ≤ fuel := hfuel; omega⟩
  have hscalar : (parseScalar (ascii ['n', 'u', 'l', 'l'] ++ rest) : Option (Json F × Bytes)) =
      some (.null, rest) := by
    unfold parseScalar
    rw [stripPrefix_append]
  rw [← hscalar]
  exact parseValue_scalar (by decide) (by decide) (by decide) (by decide)

theorem reads_bool (b : Bool) :
    Reads (writeJcs (.bool b : Json F)) (Json.bool b : Json F).sortKeys := by
  rw [writeJcs, Json.sortKeys]
  intro fuel rest hfuel _
  obtain ⟨k, rfl⟩ : ∃ k, fuel = k + 1 := by
    refine ⟨fuel - 1, ?_⟩
    have hpos : 0 < fuel := by
      cases b
      · exact Nat.lt_of_lt_of_le (by decide) hfuel
      · exact Nat.lt_of_lt_of_le (by decide) hfuel
    omega
  cases b with
  | true =>
    have hscalar : (parseScalar (ascii ['t', 'r', 'u', 'e'] ++ rest) : Option (Json F × Bytes)) =
        some (.bool true, rest) := by
      have hnull : stripPrefix (ascii ['n', 'u', 'l', 'l']) (ascii ['t', 'r', 'u', 'e'] ++ rest) =
          none := rfl
      unfold parseScalar
      rw [hnull, stripPrefix_append]
    rw [if_pos rfl, ← hscalar]
    exact parseValue_scalar (by decide) (by decide) (by decide) (by decide)
  | false =>
    have hscalar : (parseScalar (ascii ['f', 'a', 'l', 's', 'e'] ++ rest) :
        Option (Json F × Bytes)) = some (.bool false, rest) := by
      have hnull : stripPrefix (ascii ['n', 'u', 'l', 'l'])
          (ascii ['f', 'a', 'l', 's', 'e'] ++ rest) = none := rfl
      have htrue : stripPrefix (ascii ['t', 'r', 'u', 'e'])
          (ascii ['f', 'a', 'l', 's', 'e'] ++ rest) = none := rfl
      unfold parseScalar
      rw [hnull, htrue, stripPrefix_append]
    rw [if_neg Bool.false_ne_true, ← hscalar]
    exact parseValue_scalar (by decide) (by decide) (by decide) (by decide)

/-- An array is read back when its items are. -/
theorem reads_arr {items : List (Json F)} (h : ∀ v ∈ items, Plain v)
    (ih : ∀ v ∈ items, Reads (writeJcs v) v.sortKeys) :
    Reads (writeJcs (.arr items)) (Json.arr items).sortKeys := by
  rw [writeJcs, Json.sortKeys, jcsItems_eq, Json.sortItems_eq]
  intro fuel rest hfuel _
  rw [List.length_cons, List.length_append, List.length_singleton] at hfuel
  obtain ⟨k, rfl⟩ : ∃ k, fuel = k + 1 := ⟨fuel - 1, by omega⟩
  rw [List.cons_append, parseValue_cons (by decide), if_neg (by decide), if_pos rfl,
    List.append_assoc]
  cases items with
  | nil => rfl
  | cons v items =>
    have hhead : (skipSpace (commaSep ((v :: items).map writeJcs) ++ ([0x5d] ++ rest))).head? ≠
        some 0x5d := by
      obtain ⟨b, s, hb, hspace, hne⟩ := writeJcs_head (h v List.mem_cons_self)
      have hcons : ∃ t, commaSep ((v :: items).map writeJcs) ++ ([0x5d] ++ rest) = b :: t := by
        cases items with
        | nil => exact ⟨s ++ ([0x5d] ++ rest), by rw [List.map_singleton, commaSep, hb]; rfl⟩
        | cons w items =>
          refine ⟨s ++ 0x2c :: commaSep ((w :: items).map writeJcs) ++ ([0x5d] ++ rest), ?_⟩
          rw [List.map_cons, List.map_cons, commaSep, hb]
          rfl
      obtain ⟨t, ht⟩ := hcons
      rw [ht, skipSpace_cons hspace, List.head?_cons]
      exact fun hc => hne (Option.some.inj hc)
    rw [if_neg hhead]
    change (parseItems k (commaSep ((v :: items).map writeJcs) ++ 0x5d :: rest)).map _ = _
    rw [parseItems_written (List.cons_ne_nil v items) ih (by omega)]
    rfl

/-- An object is read back, sorted, when its fields' values are. -/
theorem reads_obj {fields : List (Bytes × Json F)} (keys : ∀ f ∈ fields, escapeFree f.1 = true)
    (ih : ∀ f ∈ fields, Reads (writeJcs f.2) f.2.sortKeys) :
    Reads (writeJcs (.obj fields)) (Json.obj fields).sortKeys := by
  rw [writeJcs_obj keys, Json.sortKeys_obj]
  have hperm := sortFields_perm byteUnits fields
  have hkeys : ∀ f ∈ sortFields byteUnits fields, escapeFree f.1 = true :=
    fun f hf => keys f (hperm.mem_iff.mp hf)
  have hreads : ∀ f ∈ sortFields byteUnits fields, Reads (writeJcs f.2) f.2.sortKeys :=
    fun f hf => ih f (hperm.mem_iff.mp hf)
  generalize sortFields byteUnits fields = sorted at hkeys hreads
  intro fuel rest hfuel _
  rw [List.length_cons, List.length_append, List.length_singleton] at hfuel
  obtain ⟨k, rfl⟩ : ∃ k, fuel = k + 1 := ⟨fuel - 1, by omega⟩
  rw [List.cons_append, parseValue_cons (by decide), if_neg (by decide), if_neg (by decide),
    if_pos rfl, List.append_assoc]
  cases sorted with
  | nil => rfl
  | cons f sorted =>
    have hhead : (skipSpace (commaSep ((f :: sorted).map fun f =>
        fieldText (quote f.1) (writeJcs f.2)) ++ ([0x7d] ++ rest))).head? ≠ some 0x7d := by
      have hcons : ∃ t, commaSep ((f :: sorted).map fun f =>
          fieldText (quote f.1) (writeJcs f.2)) ++ ([0x7d] ++ rest) = 0x22 :: t := by
        cases sorted with
        | nil => exact ⟨_, rfl⟩
        | cons g sorted => exact ⟨_, rfl⟩
      obtain ⟨t, ht⟩ := hcons
      rw [ht, skipSpace_cons (by decide)]
      exact fun hc => absurd (Option.some.inj hc) (by decide)
    rw [if_neg hhead]
    change (parseFields k (commaSep ((f :: sorted).map fun f =>
      fieldText (quote f.1) (writeJcs f.2)) ++ 0x7d :: rest)).map _ = _
    rw [parseFields_written (List.cons_ne_nil f sorted) hkeys hreads (by omega)]
    rfl

/-- **A plain value is read back**, its objects sorted. -/
theorem reads_plain {v : Json F} (h : Plain v) : Reads (writeJcs v) v.sortKeys := by
  induction h with
  | null => exact reads_null
  | bool b => exact reads_bool b
  | posInt n h =>
    rw [writeJcs, Json.sortKeys]
    exact reads_posInt n
  | negInt n h =>
    rw [writeJcs, Json.sortKeys]
    exact reads_negInt n
  | str s h =>
    rw [writeJcs, Json.sortKeys, writeString_plain h]
    exact reads_str h
  | arr items h ih => exact reads_arr h ih
  | obj fields keys values ih => exact reads_obj keys ih

/-- **The canonical text reads back as the value**, and is the teller's. -/
theorem parseJson_canonicalize {v : Json F} {s : Bytes} (h : canonicalize v = .ok s) :
    parseJson s = some v.sortKeys ∧ jcs v = s := by
  obtain ⟨hplain, hsame⟩ := agrees v _ _ h
  refine ⟨?_, hsame.symm⟩
  have hread := reads_plain hplain (s.length + 1) [] (by rw [hsame]; omega)
    (fun b hb => by cases hb)
  rw [List.append_nil, ← hsame] at hread
  unfold parseJson
  rw [hread]
  rfl

/-- One text is one value, up to the order of keys. -/
theorem canonicalize_injective {v w : Json F} {s : Bytes} (hv : canonicalize v = .ok s)
    (hw : canonicalize w = .ok s) : v.sortKeys = w.sortKeys := by
  have h := (parseJson_canonicalize hv).1.symm.trans (parseJson_canonicalize hw).1
  exact Option.some.inj h

end

end Reserve

end Sidestr
