/-
# The block file

Blocks are appended to one file, each behind its height and its size, and an
index beside it says where each one is. A write may fail after any part of it:
the file then ends in the part that was written, and the index does not name
it. What the index names is read back whatever is appended later.

Key definitions: `blockRecord`, `appendBlock`, `truncateFrom`, `readBlock`.
Key theorems: `readBlock_appended`, `readBlock_append`.
-/
import Sidestr.Core.Text
import Sidestr.Core.Block

namespace Sidestr

/-- What the calls on a chain directory report: a core error, a failed read or
write, or a block file that contradicts its index. -/
inductive DiskError
  | core (e : Error)
  | io
  | json
  | blockFile (why : String)
  deriving DecidableEq

structure IndexEntry where
  height : UInt32
  /-- The block's hash, as display-order hex. -/
  hash : Bytes
  /-- Where its 8-byte header is in the file. -/
  offset : ℕ
  size : ℕ
  deriving DecidableEq

structure Index where
  network : Bytes
  «from» : ℤ
  «to» : ℤ
  blocks : List IndexEntry
  deriving DecidableEq

def Index.new (network : Bytes) : Index := ⟨network, 0, -1, []⟩

/-- The index beside the block file; a failed write may leave it cut short. -/
inductive IndexFile
  | absent
  | whole (index : Index)
  | cut

/-- The index, or none when the file does not exist. A text cut short is no JSON. -/
def readIndex : IndexFile → Res DiskError (Option Index)
  | .absent => .ok none
  | .whole index => .ok (some index)
  | .cut => .err .json

/-- How an append ends: the record written, or an error after some of its bytes. -/
inductive Append
  | whole
  | part (written : ℕ)
  deriving DecidableEq

/-- How an index write ends: the new text in place, or an error that leaves
the old one or a part of the new. -/
inductive IndexWrite
  | whole
  | kept
  | cut
  deriving DecidableEq

/-- A block behind its height and its size. -/
def blockRecord (height : UInt32) (bytes : Bytes) : Bytes :=
  leBytes 4 height.toNat ++ leBytes 4 (bytes.length % 2 ^ 32) ++ bytes

/-- The entry of a block appended to a file of this length. -/
def indexEntry (length : ℕ) (height : UInt32) (hash bytes : Bytes) : IndexEntry :=
  ⟨height, hash, length, bytes.length % 2 ^ 32⟩

/-- Append a block and record it in the index. No file is longer than a `u64`
says. -/
def appendBlock (w : Append) (dat : Bytes) (index : Index) (height : UInt32)
    (hash bytes : Bytes) : (Bytes × Index) × Res DiskError Unit :=
  match w with
  | .part n => ((dat ++ (blockRecord height bytes).take n, index), .err .io)
  | .whole =>
    if 2 ^ 64 ≤ (dat ++ blockRecord height bytes).length then ((dat, index), .err .io)
    else ((dat ++ blockRecord height bytes,
      { index with blocks := index.blocks ++ [indexEntry dat.length height hash bytes]
                   «to» := height.toNat }), .ok ())

/-- The block bytes an entry points at, with the record's framing held to it. -/
def readBlock (dat : Bytes) (e : IndexEntry) : Res DiskError Bytes := do
  let «end» := e.offset + 8 + e.size
  Res.refuseIf (decide (2 ^ 64 ≤ «end»)) (.blockFile "index entry overflows")
  Res.refuseIf (decide (dat.length < «end»)) (.blockFile "index entry runs past the file")
  let record := dat.drop e.offset
  let height := leNat (record.take 4)
  let size := leNat ((record.drop 4).take 4)
  Res.refuseIf (height != e.height.toNat || size != e.size)
    (.blockFile "the record is not what the index entry says")
  .ok ((record.drop 8).take e.size)

/-- The file cut, or filled with zeros, to a length. -/
def setLen (length : ℕ) (dat : Bytes) : Bytes :=
  dat.take length ++ List.replicate (length - dat.length) 0

/-- Drop every block from the first of this height on: the file is cut at its
record and the index at its entry. -/
def truncateFrom (dat : Bytes) (index : Index) (height : UInt32) : Bytes × Index :=
  match index.blocks.dropWhile fun b => b.height != height with
  | [] => (dat, index)
  | e :: _ =>
    let kept := index.blocks.takeWhile fun b => b.height != height
    (setLen e.offset dat, { index with
      blocks := kept
      «to» := match kept.getLast? with
        | some last => last.height.toNat
        | none => index.from - 1 })

/-! ### Little-endian numbers -/

theorem leNat_cons (a : UInt8) (l : Bytes) : leNat (a :: l) = a.toNat + 256 * leNat l := by
  unfold leNat beNat
  rw [List.reverse_cons, List.foldl_append]
  simp only [List.foldl_cons, List.foldl_nil]
  omega

theorem leNat_lt : ∀ b : Bytes, leNat b < 256 ^ b.length
  | [] => by decide
  | a :: b => by
    have ih := leNat_lt b
    have ha := a.toNat_lt
    rw [leNat_cons, List.length_cons, pow_succ]
    omega

/-- The bytes of the number read are the bytes. -/
theorem leBytes_leNat : ∀ b : Bytes, leBytes b.length (leNat b) = b
  | [] => rfl
  | a :: b => by
    have ha := a.toNat_lt
    have hbyte : UInt8.ofNat (a.toNat + 256 * leNat b) = a := by
      apply UInt8.toNat_inj.mp
      rw [UInt8.toNat_ofNat']
      omega
    have hdiv : (a.toNat + 256 * leNat b) / 256 = leNat b := by omega
    rw [leNat_cons, List.length_cons, leBytes, hbyte, hdiv, leBytes_leNat b]

theorem leNat_leBytes {k n : ℕ} (h : n < 256 ^ k) : leNat (leBytes k n) = n := by
  unfold leNat
  rw [beNat_reverse_leBytes, Nat.mod_eq_of_lt h]

/-! ### Reading what was appended -/

theorem length_blockRecord (height : UInt32) (bytes : Bytes) :
    (blockRecord height bytes).length = 8 + bytes.length := by
  unfold blockRecord
  rw [List.length_append, List.length_append, length_leBytes, length_leBytes]

/-- **A block appended reads back.** -/
theorem readBlock_appended {dat : Bytes} {height : UInt32} {bytes : Bytes} (hash : Bytes)
    (hsize : bytes.length < 2 ^ 32)
    (hfits : (dat ++ blockRecord height bytes).length < 2 ^ 64) :
    readBlock (dat ++ blockRecord height bytes) (indexEntry dat.length height hash bytes) =
      .ok bytes := by
  have hlen : (dat ++ blockRecord height bytes).length = dat.length + 8 + bytes.length := by
    rw [List.length_append, length_blockRecord, Nat.add_assoc]
  have hmod : bytes.length % 2 ^ 32 = bytes.length := Nat.mod_eq_of_lt hsize
  have hhead : (blockRecord height bytes).take 4 = leBytes 4 height.toNat := by
    unfold blockRecord
    rw [List.append_assoc, List.take_append_of_le_length (by rw [length_leBytes]),
      List.take_of_length_le (by rw [length_leBytes])]
  have hmid : (blockRecord height bytes).drop 4 = leBytes 4 (bytes.length % 2 ^ 32) ++ bytes := by
    unfold blockRecord
    rw [List.append_assoc, List.drop_append_of_le_length (by rw [length_leBytes]),
      List.drop_of_length_le (by rw [length_leBytes]), List.nil_append]
  have htail : (blockRecord height bytes).drop 8 = bytes := by
    rw [show 8 = 4 + 4 from rfl, ← List.drop_drop, hmid,
      List.drop_append_of_le_length (by rw [length_leBytes]),
      List.drop_of_length_le (by rw [length_leBytes]), List.nil_append]
  unfold readBlock indexEntry
  dsimp only
  rw [hlen] at hfits ⊢
  rw [hmod]
  refine Res.bind_eq_ok.mpr ⟨(), Res.refuseIf_eq_ok.mpr (by simpa using hfits), ?_⟩
  refine Res.bind_eq_ok.mpr ⟨(), Res.refuseIf_eq_ok.mpr (by simp), ?_⟩
  rw [List.drop_left]
  refine Res.bind_eq_ok.mpr ⟨(), Res.refuseIf_eq_ok.mpr ?_, ?_⟩
  · rw [hhead, hmid, List.take_append_of_le_length (by rw [length_leBytes]),
      List.take_of_length_le (by rw [length_leBytes]), leNat_leBytes height.toNat_lt,
      leNat_leBytes (by omega)]
    simpa using hsize
  · rw [htail, List.take_length]

/-- What reads back reads back after more is appended. -/
theorem readBlock_append {dat : Bytes} {e : IndexEntry} {bytes : Bytes} (more : Bytes)
    (h : readBlock dat e = .ok bytes) : readBlock (dat ++ more) e = .ok bytes := by
  unfold readBlock at h ⊢
  dsimp only at h ⊢
  obtain ⟨_, hover, h⟩ := Res.bind_eq_ok.mp h
  obtain ⟨_, hpast, h⟩ := Res.bind_eq_ok.mp h
  have hend : e.offset + 8 + e.size ≤ dat.length := by
    rw [Res.refuseIf_eq_ok, decide_eq_false_iff_not] at hpast
    omega
  have htake : ∀ d k, d + k ≤ 8 + e.size →
      (((dat ++ more).drop e.offset).drop d).take k = ((dat.drop e.offset).drop d).take k := by
    intro d k hk
    rw [List.drop_append_of_le_length (by omega), List.drop_append_of_le_length,
      List.take_append_of_le_length]
    · rw [List.length_drop, List.length_drop]
      omega
    · rw [List.length_drop]
      omega
  have hhead := htake 0 4 (by omega)
  rw [List.drop_zero, List.drop_zero] at hhead
  refine Res.bind_eq_ok.mpr ⟨(), hover, Res.bind_eq_ok.mpr ⟨(), Res.refuseIf_eq_ok.mpr ?_, ?_⟩⟩
  · rw [decide_eq_false_iff_not, List.length_append]
    omega
  · rw [hhead, htake 4 4 (by omega), htake 8 e.size (by omega)]
    exact h

end Sidestr
