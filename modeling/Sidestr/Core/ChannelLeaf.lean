/-
# The leaves of a payment channel

The seven tapscript leaves a channel coin may be spent by (`channel.rs`). The
crate has no script interpreter: a leaf is one of these templates byte for
byte, or it is refused. `toScript` writes a template with its values, `parse`
reads one with a cursor that knows only the pieces the templates use.

Every piece is read exactly: what is written is read, with the bytes after it,
and what is read is what would be written. So a leaf's script is recognised as
that leaf, and no other script is recognised as it.

Key definitions: `ChannelLeaf`, `pushNum`, `readNum`, `ChannelLeaf.toScript`,
`ChannelLeaf.parse`.
Key theorems: `readNum_pushNum`, `readNum_exact`, `ChannelLeaf.parse_toScript`,
`ChannelLeaf.toScript_of_parse`, `channel_leaves_exact`.
-/
import Mathlib.Tactic.IntervalCases
import Sidestr.Core.Heights

namespace Sidestr

/-- Lock times below this are block heights. -/
def locktimeThreshold : ℕ := 500000000

section

variable [Bitcoin]

/-- A key: 32 bytes that are an x coordinate on the curve. -/
structure XOnlyPublicKey where
  serialize : Bytes
  length : serialize.length = 32
  valid : Bitcoin.isXOnly serialize = true
  deriving DecidableEq

/-- The key these bytes serialise, if they do. -/
def XOnlyPublicKey.fromSlice (b : Bytes) : Option XOnlyPublicKey :=
  if h : b.length = 32 ∧ Bitcoin.isXOnly b = true then some ⟨b, h.1, h.2⟩ else none

/-- A payment hash: 32 bytes. -/
abbrev PaymentHash := { b : Bytes // b.length = 32 }

/-- One of the seven leaves, with the values it carries. -/
inductive ChannelLeaf where
  /-- The 2-of-2 funding leaf, the keys in leaf order. -/
  | funding (k1 k2 : XOnlyPublicKey)
  /-- One key: a revocation leaf. -/
  | key (key : XOnlyPublicKey)
  /-- A key after a relative delay in blocks. -/
  | delayed (delay : UInt16) (key : XOnlyPublicKey)
  /-- A key with the preimage of the hash. -/
  | hashLock (hash : PaymentHash) (key : XOnlyPublicKey)
  /-- A key with the preimage and after a relative delay. -/
  | hashLockDelayed (hash : PaymentHash) (delay : UInt16) (key : XOnlyPublicKey)
  /-- A key after an absolute height. -/
  | timeout (expiry : UInt32) (key : XOnlyPublicKey)
  /-- A key after an absolute height and a relative delay. -/
  | timeoutDelayed (expiry : UInt32) (delay : UInt16) (key : XOnlyPublicKey)
  deriving DecidableEq

/-! ### Writing -/

def op2 : UInt8 := 0x52
def opDrop : UInt8 := 0x75
def opEqualverify : UInt8 := 0x88
def opNumequal : UInt8 := 0x9c
def opSha256 : UInt8 := 0xa8
def opChecksig : UInt8 := 0xac
def opCltv : UInt8 := 0xb1
def opCsv : UInt8 := 0xb2
def opChecksigadd : UInt8 := 0xba

omit [Bitcoin] in
/-- The minimal push of a number; the bytes of a 32-bit number are at most four. -/
def pushNum (n : ℕ) : Bytes :=
  if n = 0 then [0x00]
  else if n ≤ 16 then [UInt8.ofNat (0x50 + n)]
  else
    let bytes := heightBytes 4 n
    let bytes := match bytes.getLast? with
      | some b => if 0x80 ≤ b.toNat then bytes ++ [0] else bytes
      | none => bytes
    UInt8.ofNat bytes.length :: bytes

def pushKey (key : XOnlyPublicKey) : Bytes := 0x20 :: key.serialize

/-- The hash, the expiry and the delay a leaf checks before its key. -/
def lockScript (hash : Option PaymentHash) (expiry : Option UInt32) (delay : Option UInt16) :
    Bytes :=
  (match hash with
    | some h => opSha256 :: 0x20 :: (h.1 ++ [opEqualverify])
    | none => []) ++
  (match expiry with
    | some e => pushNum e.toNat ++ [opCltv, opDrop]
    | none => []) ++
  (match delay with
    | some d => pushNum d.toNat ++ [opCsv, opDrop]
    | none => [])

/-- The leaf's script. -/
def ChannelLeaf.toScript : ChannelLeaf → Bytes
  | .funding k1 k2 =>
    pushKey k1 ++ (opChecksig :: (pushKey k2 ++ [opChecksigadd, op2, opNumequal]))
  | .key k => lockScript none none none ++ (pushKey k ++ [opChecksig])
  | .delayed delay k => lockScript none none (some delay) ++ (pushKey k ++ [opChecksig])
  | .hashLock hash k => lockScript (some hash) none none ++ (pushKey k ++ [opChecksig])
  | .hashLockDelayed hash delay k =>
    lockScript (some hash) none (some delay) ++ (pushKey k ++ [opChecksig])
  | .timeout expiry k => lockScript none (some expiry) none ++ (pushKey k ++ [opChecksig])
  | .timeoutDelayed expiry delay k =>
    lockScript none (some expiry) (some delay) ++ (pushKey k ++ [opChecksig])

/-- The height a leaf waits for, if any. -/
def ChannelLeaf.expiry : ChannelLeaf → Option UInt32
  | .timeout expiry _ => some expiry
  | .timeoutDelayed expiry _ _ => some expiry
  | _ => none

/-! ### Reading

The cursor is the bytes it has not read yet. -/

omit [Bitcoin] in
/-- One opcode. -/
def readOp (op : UInt8) : Bytes → Option Bytes
  | [] => none
  | b :: rest => if b = op then some rest else none

omit [Bitcoin] in
/-- A push of 32 bytes. -/
def readPush32 (b : Bytes) : Option (Bytes × Bytes) := do
  let rest ← readOp 0x20 b
  if rest.length < 32 then none else some (rest.take 32, rest.drop 32)

def readKey (b : Bytes) : Option (XOnlyPublicKey × Bytes) := do
  let (push, rest) ← readPush32 b
  let key ← XOnlyPublicKey.fromSlice push
  some (key, rest)

omit [Bitcoin] in
/-- A number in exactly the encoding of `pushNum`. -/
def readNum (b : Bytes) : Option (ℕ × Bytes) :=
  match b with
  | [] => none
  | first :: rest =>
    if first = 0 then some (0, rest)
    else if 0x51 ≤ first.toNat ∧ first.toNat ≤ 0x60 then some (first.toNat - 0x50, rest)
    else if 1 ≤ first.toNat ∧ first.toNat ≤ 5 then
      if rest.length < first.toNat then none
      else
        let digits := rest.take first.toNat
        if 0x80 ≤ ((digits.getLast?).getD 0).toNat then none
        else if 2 ^ 32 ≤ leNat digits then none
        else
          let canon := pushNum (leNat digits)
          if b.take canon.length = canon then some (leNat digits, b.drop canon.length) else none
    else none

omit [Bitcoin] in
/-- The hash lock at the front, if there is one. -/
def readHash (b : Bytes) : Option (Option PaymentHash × Bytes) :=
  match readOp opSha256 b with
  | none => some (none, b)
  | some rest => do
    let (push, rest) ← readPush32 rest
    let rest ← readOp opEqualverify rest
    if h : push.length = 32 then some (some ⟨push, h⟩, rest) else none

omit [Bitcoin] in
/-- A delay: a number, `CSV` and `DROP`. -/
def readDelay (b : Bytes) : Option (ℕ × Bytes) := do
  let (d, rest) ← readNum b
  let rest ← readOp opCsv rest
  let rest ← readOp opDrop rest
  some (d, rest)

omit [Bitcoin] in
/-- The expiry and the delay before the key: a number then `CLTV` is an expiry,
a number then `CSV` a delay. -/
def readLocks (b : Bytes) : Option ((Option ℕ × Option ℕ) × Bytes) :=
  if b.head? = some 0x20 then some ((none, none), b)
  else do
    let (n, rest) ← readNum b
    match readOp opCltv rest with
    | some rest => do
      let rest ← readOp opDrop rest
      if rest.head? = some 0x20 then some ((some n, none), rest)
      else do
        let (d, rest) ← readDelay rest
        some ((some n, some d), rest)
    | none => do
      let rest ← readOp opCsv rest
      let rest ← readOp opDrop rest
      some ((none, some n), rest)

/-- The leaf with these parts; a hash lock with an absolute timeout is none. -/
def leafOf (key : XOnlyPublicKey) : Option PaymentHash → Option UInt32 → Option UInt16 →
    Option ChannelLeaf
  | none, none, none => some (.key key)
  | none, none, some delay => some (.delayed delay key)
  | some hash, none, none => some (.hashLock hash key)
  | some hash, none, some delay => some (.hashLockDelayed hash delay key)
  | none, some expiry, none => some (.timeout expiry key)
  | none, some expiry, some delay => some (.timeoutDelayed expiry delay key)
  | some _, some _, _ => none

/-- The template a script is, with its values. -/
def ChannelLeaf.parse (script : Bytes) : Option ChannelLeaf :=
  if script.length = 70 ∧ script.head? = some 0x20 ∧ script[33]? = some opChecksig then do
    let (k1, rest) ← readKey script
    let rest ← readOp opChecksig rest
    let (k2, rest) ← readKey rest
    let rest ← readOp opChecksigadd rest
    let rest ← readOp op2 rest
    let rest ← readOp opNumequal rest
    if rest = [] then some (.funding k1 k2) else none
  else do
    let (hash, rest) ← readHash script
    let ((expiry, delay), rest) ← readLocks rest
    let (k, rest) ← readKey rest
    let rest ← readOp opChecksig rest
    if rest ≠ [] then none
    else if expiry.any fun e => locktimeThreshold ≤ e then none
    else if delay.any fun d => 2 ^ 16 ≤ d then none
    else leafOf k hash (expiry.map UInt32.ofNat) (delay.map UInt16.ofNat)

/-! ### Each piece is read exactly -/

omit [Bitcoin] in
@[simp] theorem readOp_cons (op : UInt8) (rest : Bytes) : readOp op (op :: rest) = some rest :=
  if_pos rfl

omit [Bitcoin] in
theorem readOp_exact {op : UInt8} {b rest : Bytes} (h : readOp op b = some rest) :
    b = op :: rest := by
  unfold readOp at h
  split at h
  · simp at h
  · split_ifs at h with hop
    rw [hop, Option.some.inj h]

omit [Bitcoin] in
theorem readPush32_push {push : Bytes} (h : push.length = 32) (rest : Bytes) :
    readPush32 (0x20 :: (push ++ rest)) = some (push, rest) := by
  have hlong : ¬ (push ++ rest).length < 32 := by
    rw [List.length_append]
    omega
  unfold readPush32
  rw [readOp_cons, Option.bind_eq_bind, Option.bind_some, if_neg hlong, ← h, List.take_left,
    List.drop_left]

omit [Bitcoin] in
theorem readPush32_exact {b push rest : Bytes} (h : readPush32 b = some (push, rest)) :
    b = 0x20 :: (push ++ rest) ∧ push.length = 32 := by
  unfold readPush32 at h
  obtain ⟨r, hop, h⟩ := Option.bind_eq_some_iff.mp h
  split_ifs at h with hshort
  rw [Option.some.injEq, Prod.mk.injEq] at h
  obtain ⟨rfl, rfl⟩ := h
  rw [readOp_exact hop, List.take_append_drop, List.length_take]
  exact ⟨rfl, by omega⟩

theorem readKey_pushKey (key : XOnlyPublicKey) (rest : Bytes) :
    readKey (pushKey key ++ rest) = some (key, rest) := by
  have hslice : XOnlyPublicKey.fromSlice key.serialize = some key :=
    dif_pos ⟨key.length, key.valid⟩
  unfold readKey pushKey
  rw [List.cons_append, readPush32_push key.length, Option.bind_eq_bind, Option.bind_some]
  dsimp only
  rw [hslice, Option.bind_eq_bind, Option.bind_some]

theorem readKey_exact {b rest : Bytes} {key : XOnlyPublicKey} (h : readKey b = some (key, rest)) :
    b = pushKey key ++ rest := by
  unfold readKey at h
  obtain ⟨⟨push, r⟩, hpush, h⟩ := Option.bind_eq_some_iff.mp h
  obtain ⟨k, hk, h⟩ := Option.bind_eq_some_iff.mp h
  rw [Option.some.injEq, Prod.mk.injEq] at h
  obtain ⟨rfl, rfl⟩ := h
  unfold XOnlyPublicKey.fromSlice at hk
  split_ifs at hk with hvalid
  rw [← Option.some.inj hk, (readPush32_exact hpush).1]
  rfl

omit [Bitcoin] in
/-- A number above 16 is pushed as a height is. -/
theorem pushNum_eq_heightPush {n : ℕ} (h : 16 < n) (h32 : n < 2 ^ 32) :
    pushNum n = heightPush n := by
  obtain ⟨-, -, hnil, -⟩ := heightBytes_spec 4 n (by omega)
  have hne : heightBytes 4 n ≠ [] := fun he => absurd (hnil.mp he) (by omega)
  unfold pushNum heightPush
  rw [if_neg (by omega), if_neg (by omega)]
  dsimp only
  rw [List.getLast?_eq_some_getLast hne]
  dsimp only
  by_cases hhigh : 0x80 ≤ ((heightBytes 4 n).getLast hne).toNat
  · simp only [if_pos hhigh]
    rw [if_neg (by simp)]
  · simp only [if_neg hhigh]
    rw [if_neg hne]

omit [Bitcoin] in
/-- The first byte of a number is not the length of a key or the hash opcode. -/
theorem pushNum_head {n : ℕ} (h32 : n < 2 ^ 32) :
    ∃ first digits, pushNum n = first :: digits ∧ first ≠ 0x20 ∧ first ≠ opSha256 := by
  by_cases h16 : n ≤ 16
  · interval_cases n
    all_goals exact ⟨_, _, rfl, by decide, by decide⟩
  · obtain ⟨push, hpush, hne, hlen, -⟩ := heightPush_spec (by omega : 0 < n) h32
    have hpos := List.length_pos_iff.mpr hne
    refine ⟨_, push, (pushNum_eq_heightPush (by omega) h32).trans hpush, ?_, ?_⟩
    · intro he
      have hn := congrArg UInt8.toNat he
      rw [UInt8.toNat_ofNat'] at hn
      change _ = 32 at hn
      omega
    · intro he
      have hn := congrArg UInt8.toNat he
      rw [UInt8.toNat_ofNat'] at hn
      change _ = 168 at hn
      omega

omit [Bitcoin] in
/-- **A number written is read.** -/
theorem readNum_pushNum {n : ℕ} (h32 : n < 2 ^ 32) (rest : Bytes) :
    readNum (pushNum n ++ rest) = some (n, rest) := by
  by_cases h16 : n ≤ 16
  · interval_cases n
    all_goals rfl
  · obtain ⟨push, hpush, hne, hlen, hlast, -, hread⟩ := heightPush_spec (by omega : 0 < n) h32
    have hpos := List.length_pos_iff.mpr hne
    have hcanon : pushNum n = UInt8.ofNat push.length :: push :=
      (pushNum_eq_heightPush (by omega) h32).trans hpush
    have hbyte : (UInt8.ofNat push.length).toNat = push.length := by
      rw [UInt8.toNat_ofNat']
      omega
    have hfirst : UInt8.ofNat push.length ≠ 0 := by
      intro he
      rw [he] at hbyte
      change 0 = _ at hbyte
      omega
    have htake : (push ++ rest).take push.length = push := List.take_left
    rw [hcanon, List.cons_append]
    unfold readNum
    dsimp only
    rw [hbyte, if_neg hfirst, if_neg (by omega), if_pos (by omega), if_neg, htake, if_neg (by omega),
      hread, if_neg (by omega), hcanon, if_pos, ← List.cons_append, List.drop_left]
    · rw [← List.cons_append, List.take_left]
    · rw [List.length_append]
      omega

omit [Bitcoin] in
/-- **A number read is as it is written.** -/
theorem readNum_exact {b rest : Bytes} {n : ℕ} (h : readNum b = some (n, rest)) :
    b = pushNum n ++ rest ∧ n < 2 ^ 32 := by
  unfold readNum at h
  match b with
  | [] => simp at h
  | first :: tail =>
    dsimp only at h
    by_cases hzero : first = 0
    · rw [if_pos hzero, Option.some.injEq, Prod.mk.injEq] at h
      obtain ⟨rfl, rfl⟩ := h
      rw [hzero]
      exact ⟨rfl, by decide⟩
    · rw [if_neg hzero] at h
      by_cases hop : 0x51 ≤ first.toNat ∧ first.toNat ≤ 0x60
      · rw [if_pos hop, Option.some.injEq, Prod.mk.injEq] at h
        obtain ⟨rfl, rfl⟩ := h
        have hback : 0x50 + (first.toNat - 0x50) = first.toNat := by omega
        unfold pushNum
        rw [if_neg (by omega), if_pos (by omega), hback, UInt8.ofNat_toNat]
        exact ⟨rfl, by omega⟩
      · rw [if_neg hop] at h
        split_ifs at h with hpush hshort hneg hlarge hcanon
        rw [Option.some.injEq, Prod.mk.injEq] at h
        obtain ⟨rfl, rfl⟩ := h
        refine ⟨?_, by omega⟩
        calc first :: tail
            = (first :: tail).take (pushNum (leNat (tail.take first.toNat))).length ++
                (first :: tail).drop (pushNum (leNat (tail.take first.toNat))).length :=
              (List.take_append_drop _ _).symm
          _ = _ := by rw [hcanon]

/-! ### The locks -/

omit [Bitcoin] in
theorem readHash_hash (hash : PaymentHash) (rest : Bytes) :
    readHash (opSha256 :: 0x20 :: (hash.1 ++ [opEqualverify]) ++ rest) = some (some hash, rest) := by
  have hsplit : opSha256 :: 0x20 :: (hash.1 ++ [opEqualverify]) ++ rest =
      opSha256 :: (0x20 :: (hash.1 ++ (opEqualverify :: rest))) := by simp
  rw [hsplit]
  unfold readHash
  rw [readOp_cons]
  dsimp only
  rw [readPush32_push hash.2, Option.bind_eq_bind, Option.bind_some]
  dsimp only
  rw [readOp_cons, Option.bind_eq_bind, Option.bind_some, dif_pos hash.2]

omit [Bitcoin] in
theorem readHash_other {first : UInt8} (h : first ≠ opSha256) (rest : Bytes) :
    readHash (first :: rest) = some (none, first :: rest) := by
  unfold readHash readOp
  dsimp only
  rw [if_neg h]

omit [Bitcoin] in
theorem readHash_exact {b rest : Bytes} {hash : Option PaymentHash}
    (h : readHash b = some (hash, rest)) : b = lockScript hash none none ++ rest := by
  unfold readHash at h
  cases hop : readOp opSha256 b with
  | none =>
    rw [hop] at h
    simp only [Option.some.injEq, Prod.mk.injEq] at h
    obtain ⟨rfl, rfl⟩ := h
    rfl
  | some r =>
    rw [hop] at h
    dsimp only at h
    obtain ⟨⟨push, r'⟩, hpush, h⟩ := Option.bind_eq_some_iff.mp h
    obtain ⟨r'', hverify, h⟩ := Option.bind_eq_some_iff.mp h
    split_ifs at h with hlen
    rw [Option.some.injEq, Prod.mk.injEq] at h
    obtain ⟨rfl, rfl⟩ := h
    dsimp only at hverify
    rw [readOp_exact hop, (readPush32_exact hpush).1, readOp_exact hverify]
    simp [lockScript]

omit [Bitcoin] in
theorem readDelay_delay {d : ℕ} (hd : d < 2 ^ 32) (rest : Bytes) :
    readDelay (pushNum d ++ (opCsv :: opDrop :: rest)) = some (d, rest) := by
  unfold readDelay
  rw [readNum_pushNum hd, Option.bind_eq_bind, Option.bind_some]
  simp only [readOp_cons, Option.bind_eq_bind, Option.bind_some]

omit [Bitcoin] in
theorem readDelay_exact {b rest : Bytes} {d : ℕ} (h : readDelay b = some (d, rest)) :
    b = pushNum d ++ (opCsv :: opDrop :: rest) ∧ d < 2 ^ 32 := by
  unfold readDelay at h
  obtain ⟨⟨n, r⟩, hnum, h⟩ := Option.bind_eq_some_iff.mp h
  obtain ⟨r', hcsv, h⟩ := Option.bind_eq_some_iff.mp h
  obtain ⟨r'', hdrop, h⟩ := Option.bind_eq_some_iff.mp h
  rw [Option.some.injEq, Prod.mk.injEq] at h
  obtain ⟨rfl, rfl⟩ := h
  obtain ⟨hb, hlt⟩ := readNum_exact hnum
  rw [readOp_exact hcsv, readOp_exact hdrop] at hb
  exact ⟨hb, hlt⟩

omit [Bitcoin] in
/-- A number is before the key: the cursor reads it as a lock. -/
theorem pushNum_head_ne {n : ℕ} (h32 : n < 2 ^ 32) (rest : Bytes) :
    (pushNum n ++ rest).head? ≠ some 0x20 := by
  obtain ⟨first, digits, hpush, hkey, -⟩ := pushNum_head h32
  rw [hpush, List.cons_append, List.head?_cons]
  simpa using hkey

omit [Bitcoin] in
/-- The locks written are read. -/
theorem readLocks_locks (expiry : Option UInt32) (delay : Option UInt16) {rest : Bytes}
    (hrest : rest.head? = some 0x20) :
    readLocks (lockScript none expiry delay ++ rest) =
      some ((expiry.map UInt32.toNat, delay.map UInt16.toNat), rest) := by
  have hother : readOp opCltv (opCsv :: opDrop :: rest) = none := by
    unfold readOp
    dsimp only
    rw [if_neg (by decide)]
  cases expiry with
  | none =>
    cases delay with
    | none =>
      have hscript : lockScript none none none ++ rest = rest := rfl
      rw [hscript]
      unfold readLocks
      rw [if_pos hrest]
      rfl
    | some d =>
      have hd : d.toNat < 2 ^ 32 := d.toNat_lt.trans (by decide)
      have hscript : lockScript none none (some d) ++ rest =
          pushNum d.toNat ++ (opCsv :: opDrop :: rest) := by simp [lockScript]
      rw [hscript]
      unfold readLocks
      rw [if_neg (pushNum_head_ne hd _), readNum_pushNum hd, Option.bind_eq_bind, Option.bind_some]
      dsimp only
      rw [hother]
      simp only [readOp_cons, Option.bind_eq_bind, Option.bind_some]
      rfl
  | some e =>
    have he : e.toNat < 2 ^ 32 := e.toNat_lt
    cases delay with
    | none =>
      have hscript : lockScript none (some e) none ++ rest =
          pushNum e.toNat ++ (opCltv :: opDrop :: rest) := by simp [lockScript]
      rw [hscript]
      unfold readLocks
      rw [if_neg (pushNum_head_ne he _), readNum_pushNum he, Option.bind_eq_bind, Option.bind_some]
      simp only [readOp_cons, Option.bind_eq_bind, Option.bind_some]
      rw [if_pos hrest]
      rfl
    | some d =>
      have hd : d.toNat < 2 ^ 32 := d.toNat_lt.trans (by decide)
      have hscript : lockScript none (some e) (some d) ++ rest =
          pushNum e.toNat ++ (opCltv :: opDrop ::
            (pushNum d.toNat ++ (opCsv :: opDrop :: rest))) := by simp [lockScript]
      rw [hscript]
      unfold readLocks
      rw [if_neg (pushNum_head_ne he _), readNum_pushNum he, Option.bind_eq_bind, Option.bind_some]
      simp only [readOp_cons, Option.bind_eq_bind, Option.bind_some]
      rw [if_neg (pushNum_head_ne hd _), readDelay_delay hd, Option.bind_some]
      rfl

omit [Bitcoin] in
/-- The locks of a script, as numbers. -/
def lockNums (expiry delay : Option ℕ) : Bytes :=
  (match expiry with
    | some e => pushNum e ++ [opCltv, opDrop]
    | none => []) ++
  (match delay with
    | some d => pushNum d ++ [opCsv, opDrop]
    | none => [])

omit [Bitcoin] in
/-- The locks read are as they are written. -/
theorem readLocks_exact {b rest : Bytes} {expiry delay : Option ℕ}
    (h : readLocks b = some ((expiry, delay), rest)) :
    b = lockNums expiry delay ++ rest := by
  unfold readLocks at h
  split_ifs at h with hkey
  · simp only [Option.some.injEq, Prod.mk.injEq] at h
    obtain ⟨⟨rfl, rfl⟩, rfl⟩ := h
    rfl
  · obtain ⟨⟨n, r⟩, hnum, h⟩ := Option.bind_eq_some_iff.mp h
    have hb := (readNum_exact hnum).1
    dsimp only at h
    cases hcltv : readOp opCltv r with
    | none =>
      rw [hcltv] at h
      dsimp only at h
      obtain ⟨r', hcsv, h⟩ := Option.bind_eq_some_iff.mp h
      obtain ⟨r'', hdrop, h⟩ := Option.bind_eq_some_iff.mp h
      simp only [Option.some.injEq, Prod.mk.injEq] at h
      obtain ⟨⟨rfl, rfl⟩, rfl⟩ := h
      rw [hb, readOp_exact hcsv, readOp_exact hdrop]
      simp [lockNums]
    | some r' =>
      rw [hcltv] at h
      dsimp only at h
      obtain ⟨r'', hdrop, h⟩ := Option.bind_eq_some_iff.mp h
      rw [readOp_exact hcltv, readOp_exact hdrop] at hb
      split_ifs at h with hkey'
      · simp only [Option.some.injEq, Prod.mk.injEq] at h
        obtain ⟨⟨rfl, rfl⟩, rfl⟩ := h
        rw [hb]
        simp [lockNums]
      · obtain ⟨⟨d, r₃⟩, hdelay, h⟩ := Option.bind_eq_some_iff.mp h
        simp only [Option.some.injEq, Prod.mk.injEq] at h
        obtain ⟨⟨rfl, rfl⟩, rfl⟩ := h
        rw [hb, (readDelay_exact hdelay).1]
        simp [lockNums]

/-! ### Recognition -/

omit [Bitcoin] in
/-- A script with a lock does not begin with a key. -/
theorem lockScript_head {hash : Option PaymentHash} {expiry : Option UInt32}
    {delay : Option UInt16} {rest : Bytes}
    (h : (lockScript hash expiry delay ++ rest).head? = some 0x20) :
    lockScript hash expiry delay = [] := by
  cases hash with
  | some hash => simp [lockScript, opSha256] at h
  | none =>
    cases expiry with
    | some e =>
      have hne := pushNum_head_ne e.toNat_lt ([opCltv, opDrop] ++ (lockScript none none delay ++ rest))
      refine absurd ?_ hne
      simpa [lockScript] using h
    | none =>
      cases delay with
      | some d =>
        have hne := pushNum_head_ne (d.toNat_lt.trans (by decide)) ([opCsv, opDrop] ++ rest)
        refine absurd ?_ hne
        simpa [lockScript] using h
      | none => rfl

/-- The script of locks and a key is read as these parts. -/
theorem parse_lockScript (hash : Option PaymentHash) (expiry : Option UInt32)
    (delay : Option UInt16) (key : XOnlyPublicKey)
    (hexpiry : ∀ e, expiry = some e → e.toNat < locktimeThreshold) :
    ChannelLeaf.parse (lockScript hash expiry delay ++ (pushKey key ++ [opChecksig])) =
      leafOf key hash expiry delay := by
  have htail : (pushKey key ++ [opChecksig]).head? = some 0x20 := rfl
  have hlen : (pushKey key ++ [opChecksig]).length = 34 := by
    unfold pushKey
    rw [List.length_append, List.length_cons, key.length]
    rfl
  have hnot : ¬ ((lockScript hash expiry delay ++ (pushKey key ++ [opChecksig])).length = 70 ∧
      (lockScript hash expiry delay ++ (pushKey key ++ [opChecksig])).head? = some 0x20 ∧
      (lockScript hash expiry delay ++ (pushKey key ++ [opChecksig]))[33]? = some opChecksig) := by
    rintro ⟨h70, hhead, -⟩
    rw [lockScript_head hhead, List.nil_append, hlen] at h70
    omega
  have hread : readHash (lockScript hash expiry delay ++ (pushKey key ++ [opChecksig])) =
      some (hash, lockScript none expiry delay ++ (pushKey key ++ [opChecksig])) := by
    cases hash with
    | some hash =>
      have hsplit : lockScript (some hash) expiry delay ++ (pushKey key ++ [opChecksig]) =
          opSha256 :: 0x20 :: (hash.1 ++ [opEqualverify]) ++
            (lockScript none expiry delay ++ (pushKey key ++ [opChecksig])) := by
        simp [lockScript]
      rw [hsplit]
      exact readHash_hash hash _
    | none =>
      cases expiry with
      | some e =>
        obtain ⟨first, digits, hpush, -, hsha⟩ := pushNum_head e.toNat_lt
        simp only [lockScript, hpush, List.nil_append, List.cons_append]
        exact readHash_other hsha _
      | none =>
        cases delay with
        | some d =>
          obtain ⟨first, digits, hpush, -, hsha⟩ := pushNum_head (d.toNat_lt.trans (by decide))
          simp only [lockScript, hpush, List.nil_append, List.cons_append]
          exact readHash_other hsha _
        | none => exact readHash_other (by decide) _
  have hexp : (expiry.map UInt32.toNat).any (fun e => decide (locktimeThreshold ≤ e)) = false := by
    cases expiry with
    | none => rfl
    | some e =>
      have he := hexpiry e rfl
      rw [Option.map_some, Option.any_some, decide_eq_false_iff_not]
      omega
  have hdel : (delay.map UInt16.toNat).any (fun d => decide (2 ^ 16 ≤ d)) = false := by
    cases delay with
    | none => rfl
    | some d =>
      have hd := d.toNat_lt
      rw [Option.map_some, Option.any_some, decide_eq_false_iff_not]
      omega
  have hback : (expiry.map UInt32.toNat).map UInt32.ofNat = expiry := by
    cases expiry with
    | none => rfl
    | some e => rw [Option.map_some, Option.map_some, UInt32.ofNat_toNat]
  have hback' : (delay.map UInt16.toNat).map UInt16.ofNat = delay := by
    cases delay with
    | none => rfl
    | some d => rw [Option.map_some, Option.map_some, UInt16.ofNat_toNat]
  unfold ChannelLeaf.parse
  rw [if_neg hnot, hread, Option.bind_eq_bind, Option.bind_some]
  dsimp only
  rw [readLocks_locks expiry delay htail, Option.bind_eq_bind, Option.bind_some]
  dsimp only
  rw [readKey_pushKey, Option.bind_eq_bind, Option.bind_some]
  dsimp only
  rw [readOp_cons, Option.bind_eq_bind, Option.bind_some, if_neg (by simp), hexp,
    if_neg (by simp), hdel, if_neg (by simp), hback, hback']

/-- **A leaf's script is recognised as that leaf.** -/
theorem ChannelLeaf.parse_toScript (leaf : ChannelLeaf)
    (h : ∀ e, leaf.expiry = some e → e.toNat < locktimeThreshold) :
    ChannelLeaf.parse leaf.toScript = some leaf := by
  cases leaf with
  | funding k1 k2 =>
    have hlen : (ChannelLeaf.funding k1 k2).toScript.length = 70 := by
      simp only [ChannelLeaf.toScript, pushKey, List.length_append, List.length_cons,
        List.length_nil, k1.length, k2.length]
    have hat : (ChannelLeaf.funding k1 k2).toScript[33]? = some opChecksig := by
      have hkey : (pushKey k1).length = 33 := by
        unfold pushKey
        rw [List.length_cons, k1.length]
      unfold ChannelLeaf.toScript
      dsimp only
      rw [List.getElem?_append_right (by omega), hkey]
      rfl
    unfold ChannelLeaf.parse
    rw [if_pos ⟨hlen, rfl, hat⟩]
    unfold ChannelLeaf.toScript
    dsimp only
    rw [readKey_pushKey, Option.bind_eq_bind, Option.bind_some]
    dsimp only
    simp only [readOp_cons, readKey_pushKey, Option.bind_eq_bind, Option.bind_some]
    rfl
  | key key => exact parse_lockScript none none none key fun e he => by cases he
  | delayed delay key => exact parse_lockScript none none (some delay) key fun e he => by cases he
  | hashLock hash key => exact parse_lockScript (some hash) none none key fun e he => by cases he
  | hashLockDelayed hash delay key =>
    exact parse_lockScript (some hash) none (some delay) key fun e he => by cases he
  | timeout expiry key => exact parse_lockScript none (some expiry) none key h
  | timeoutDelayed expiry delay key => exact parse_lockScript none (some expiry) (some delay) key h

/-- A leaf made of parts writes them. -/
theorem toScript_leafOf {key : XOnlyPublicKey} {hash : Option PaymentHash}
    {expiry : Option UInt32} {delay : Option UInt16} {leaf : ChannelLeaf}
    (h : leafOf key hash expiry delay = some leaf) :
    leaf.toScript = lockScript hash expiry delay ++ (pushKey key ++ [opChecksig]) := by
  cases hash with
  | none =>
    cases expiry with
    | none => cases delay <;> (cases h; rfl)
    | some e => cases delay <;> (cases h; rfl)
  | some hash =>
    cases expiry with
    | none => cases delay <;> (cases h; rfl)
    | some e => simp [leafOf] at h

/-- **No other script is recognised.** -/
theorem ChannelLeaf.toScript_of_parse {script : Bytes} {leaf : ChannelLeaf}
    (h : ChannelLeaf.parse script = some leaf) : leaf.toScript = script := by
  unfold ChannelLeaf.parse at h
  split_ifs at h with hfunding
  · obtain ⟨⟨k1, r1⟩, h1, h⟩ := Option.bind_eq_some_iff.mp h
    obtain ⟨r2, h2, h⟩ := Option.bind_eq_some_iff.mp h
    obtain ⟨⟨k2, r3⟩, h3, h⟩ := Option.bind_eq_some_iff.mp h
    obtain ⟨r4, h4, h⟩ := Option.bind_eq_some_iff.mp h
    obtain ⟨r5, h5, h⟩ := Option.bind_eq_some_iff.mp h
    obtain ⟨r6, h6, h⟩ := Option.bind_eq_some_iff.mp h
    split_ifs at h with hnil
    rw [← Option.some.inj h, readKey_exact h1, readOp_exact h2, readKey_exact h3, readOp_exact h4,
      readOp_exact h5, readOp_exact h6, hnil]
    rfl
  · obtain ⟨⟨hash, r1⟩, h1, h⟩ := Option.bind_eq_some_iff.mp h
    obtain ⟨⟨⟨expiry, delay⟩, r2⟩, h2, h⟩ := Option.bind_eq_some_iff.mp h
    obtain ⟨⟨key, r3⟩, h3, h⟩ := Option.bind_eq_some_iff.mp h
    obtain ⟨r4, h4, h⟩ := Option.bind_eq_some_iff.mp h
    split_ifs at h with hrest hexpiry hdelay
    rw [ne_eq, not_not] at hrest
    rw [toScript_leafOf h, readHash_exact h1, readLocks_exact h2, readKey_exact h3, readOp_exact h4,
      hrest]
    have hlocks : lockScript hash (expiry.map UInt32.ofNat) (delay.map UInt16.ofNat) =
        lockScript hash none none ++ lockNums expiry delay := by
      have he : ∀ e, expiry = some e → (UInt32.ofNat e).toNat = e := by
        intro e hsome
        rw [hsome, Option.any_some, decide_eq_true_eq] at hexpiry
        have hthreshold : locktimeThreshold = 500000000 := rfl
        have hsize : UInt32.size = 4294967296 := rfl
        exact UInt32.toNat_ofNat_of_lt' (by omega)
      have hd : ∀ d, delay = some d → (UInt16.ofNat d).toNat = d := by
        intro d hsome
        rw [hsome, Option.any_some, decide_eq_true_eq] at hdelay
        have hsize : UInt16.size = 65536 := rfl
        exact UInt16.toNat_ofNat_of_lt' (by omega)
      cases expiry with
      | none =>
        cases delay with
        | none => simp [lockScript, lockNums]
        | some d => simp [lockScript, lockNums, hd d rfl]
      | some e =>
        cases delay with
        | none => simp [lockScript, lockNums, he e rfl]
        | some d => simp [lockScript, lockNums, he e rfl, hd d rfl]
    rw [hlocks]
    simp

/-- **Channel leaves are recognised exactly.** -/
theorem channel_leaves_exact :
    (∀ leaf : ChannelLeaf, (∀ e, leaf.expiry = some e → e.toNat < locktimeThreshold) →
      ChannelLeaf.parse leaf.toScript = some leaf) ∧
    ∀ (script : Bytes) (leaf : ChannelLeaf), ChannelLeaf.parse script = some leaf →
      leaf.toScript = script :=
  ⟨ChannelLeaf.parse_toScript, fun _ _ => ChannelLeaf.toScript_of_parse⟩

end

section

attribute [local instance] sampleBitcoin

/-- A key of the sample: any 32 bytes. -/
def sampleLeafKey : XOnlyPublicKey := ⟨List.replicate 32 7, rfl, rfl⟩

/-- A refund after a height of two bytes with padding and a delay of six blocks. -/
theorem channel_leaves_exact_sample :
    ChannelLeaf.parse (ChannelLeaf.timeoutDelayed 40000 6 sampleLeafKey).toScript =
        some (.timeoutDelayed 40000 6 sampleLeafKey) ∧
      (ChannelLeaf.key sampleLeafKey).toScript = 0x20 :: (List.replicate 32 7 ++ [0xac]) := by
  obtain ⟨hwrite, hread⟩ := channel_leaves_exact
  refine ⟨hwrite _ ?_, hread _ _ ?_⟩
  · intro e he
    cases he
    decide
  · exact hwrite (.key sampleLeafKey) fun e he => by cases he

end

end Sidestr
