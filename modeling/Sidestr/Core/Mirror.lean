/-
# The block file as a log

A mirror reads a block file from its first byte to its last, record by record
(`mirror.rs`); the node reads it through the index. Over any appends and
truncations the file is the records of the blocks the index names, in order,
and so both readers give back the bytes appended. In the other direction a
file the mirror takes is nothing but its records.

Key definitions: `Mirror.records`, `Mirror.encodeRecord`, `BlockFileRun`.
Key theorems: `Mirror.flatMap_encodeRecord`, `BlockFileRun.framed`, `block_file_faithful`.
-/
import Sidestr.Core.BlockFile

namespace Sidestr

namespace Mirror

/-- One record of a block file: the height it claims and the block's bytes. -/
structure Record where
  height : UInt32
  bytes : Bytes
  deriving DecidableEq, Repr

/-- The records from byte `start` of a file on; a trailing record that is cut
short is an error. -/
def recordsFrom (start : ℕ) (rest : Bytes) : Res DiskError (List Record) :=
  if rest = [] then .ok []
  else if rest.length < 8 then .err (.blockFile "a record is cut short")
  else
    let height := UInt32.ofNat (leNat (rest.take 4))
    let size := leNat ((rest.drop 4).take 4)
    if 2 ^ 64 ≤ start + 8 + size ∨ rest.length < 8 + size then
      .err (.blockFile "the record runs past the file")
    else do
      let out ← recordsFrom (start + 8 + size) (rest.drop (8 + size))
      .ok (⟨height, (rest.drop 8).take size⟩ :: out)
termination_by rest.length
decreasing_by
  rw [List.length_drop]
  omega

/-- Split a block file into its records. -/
def records (dat : Bytes) : Res DiskError (List Record) := recordsFrom 0 dat

/-- One record's bytes. -/
def encodeRecord (height : UInt32) (block : Bytes) : Bytes :=
  leBytes 4 height.toNat ++ leBytes 4 (block.length % 2 ^ 32) ++ block

theorem encodeRecord_eq (height : UInt32) (block : Bytes) :
    encodeRecord height block = blockRecord height block := rfl

theorem recordsFrom_nil (start : ℕ) : recordsFrom start [] = .ok [] := by
  rw [recordsFrom, if_pos rfl]

/-- A whole record is read, and the reading goes on behind it. -/
theorem recordsFrom_record {start : ℕ} {height : UInt32} {block rest : Bytes} {out : List Record}
    (hsize : block.length < 2 ^ 32)
    (hfits : start + (encodeRecord height block ++ rest).length < 2 ^ 64)
    (h : recordsFrom (start + (encodeRecord height block).length) rest = .ok out) :
    recordsFrom start (encodeRecord height block ++ rest) = .ok (⟨height, block⟩ :: out) := by
  have hlen : (encodeRecord height block).length = 8 + block.length := length_blockRecord _ _
  have hhead : (leBytes 4 height.toNat).length = 4 := length_leBytes _ _
  have hmid : (leBytes 4 block.length).length = 4 := length_leBytes _ _
  have hmod : block.length % 2 ^ 32 = block.length := Nat.mod_eq_of_lt hsize
  have hsplit : encodeRecord height block ++ rest =
      leBytes 4 height.toNat ++ (leBytes 4 block.length ++ (block ++ rest)) := by
    unfold encodeRecord
    rw [hmod, List.append_assoc, List.append_assoc]
  have hheight : leNat ((encodeRecord height block ++ rest).take 4) = height.toNat := by
    rw [hsplit, List.take_append_of_le_length (by rw [hhead]), List.take_of_length_le (by rw [hhead]),
      leNat_leBytes height.toNat_lt]
  have hdrop : (encodeRecord height block ++ rest).drop 4 =
      leBytes 4 block.length ++ (block ++ rest) := by
    rw [hsplit, List.drop_append_of_le_length (by rw [hhead]),
      List.drop_of_length_le (by rw [hhead]), List.nil_append]
  have hsizeRead : leNat (((encodeRecord height block ++ rest).drop 4).take 4) = block.length := by
    rw [hdrop, List.take_append_of_le_length (by rw [hmid]), List.take_of_length_le (by rw [hmid]),
      leNat_leBytes (by omega)]
  have hbody : (encodeRecord height block ++ rest).drop 8 = block ++ rest := by
    rw [show 8 = 4 + 4 from rfl, ← List.drop_drop, hdrop,
      List.drop_append_of_le_length (by rw [hmid]), List.drop_of_length_le (by rw [hmid]),
      List.nil_append]
  have hrest : (encodeRecord height block ++ rest).drop (8 + block.length) = rest := by
    rw [← hlen, List.drop_left]
  have hne : encodeRecord height block ++ rest ≠ [] := by
    intro hnil
    have hzero := congrArg List.length hnil
    rw [List.length_append, hlen, List.length_nil] at hzero
    omega
  rw [List.length_append, hlen] at hfits
  rw [hlen, ← Nat.add_assoc] at h
  rw [recordsFrom, if_neg hne, if_neg (by rw [List.length_append, hlen]; omega)]
  dsimp only
  rw [hheight, hsizeRead, if_neg (by rw [List.length_append, hlen]; omega), hrest, h, Res.ok_bind,
    hbody, List.take_left, UInt32.ofNat_toNat]

/-- **A file the mirror takes is its records.** -/
theorem flatMap_encodeRecord {start : ℕ} {rest : Bytes} {out : List Record}
    (h : recordsFrom start rest = .ok out) :
    out.flatMap (fun r => encodeRecord r.height r.bytes) = rest := by
  induction start, rest using recordsFrom.induct generalizing out with
  | case1 start =>
    rw [recordsFrom_nil, Res.ok.injEq] at h
    rw [← h]
    rfl
  | case2 start rest hne hshort =>
    rw [recordsFrom, if_neg hne, if_pos hshort] at h
    simp at h
  | case3 start rest hne hlong size =>
    rename_i hpast
    rw [recordsFrom, if_neg hne, if_neg hlong] at h
    dsimp only at h
    rw [if_pos hpast] at h
    simp at h
  | case4 start rest hne hlong size hwithin =>
    rename_i ih
    have hsize : size = leNat ((rest.drop 4).take 4) := rfl
    rw [recordsFrom, if_neg hne, if_neg hlong] at h
    dsimp only at h
    rw [if_neg hwithin] at h
    obtain ⟨out', hout, h⟩ := Res.bind_eq_ok.mp h
    rw [Res.ok.injEq] at h
    rw [not_or, not_le, not_lt] at hwithin
    have hfour : (rest.take 4).length = 4 := by
      rw [List.length_take]
      omega
    have hfour' : ((rest.drop 4).take 4).length = 4 := by
      rw [List.length_take, List.length_drop]
      omega
    have hheight : leNat (rest.take 4) < 2 ^ 32 := by
      have hlt := leNat_lt (rest.take 4)
      rwa [hfour] at hlt
    have hsizeLt : size < 2 ^ 32 := by
      have hlt := leNat_lt ((rest.drop 4).take 4)
      rwa [hfour'] at hlt
    have hbody : ((rest.drop 8).take size).length = size := by
      rw [List.length_take, List.length_drop]
      omega
    have hback : leBytes 4 (UInt32.ofNat (leNat (rest.take 4))).toNat = rest.take 4 := by
      have hread := leBytes_leNat (rest.take 4)
      rw [hfour] at hread
      rw [UInt32.toNat_ofNat_of_lt' hheight, hread]
    have hback' : leBytes 4 (size % 2 ^ 32) = (rest.drop 4).take 4 := by
      have hread := leBytes_leNat ((rest.drop 4).take 4)
      rw [hfour'] at hread
      rw [Nat.mod_eq_of_lt hsizeLt, hsize, hread]
    rw [← h, List.flatMap_cons, ih hout]
    unfold encodeRecord
    dsimp only
    rw [← hsize, hbody, hback, hback', List.append_assoc, List.append_assoc]
    calc rest.take 4 ++ ((rest.drop 4).take 4 ++ ((rest.drop 8).take size ++ rest.drop (8 + size)))
        = rest.take 4 ++ ((rest.drop 4).take 4 ++ rest.drop 8) := by
          rw [← List.drop_drop, List.take_append_drop]
      _ = rest.take 4 ++ rest.drop 4 := by
          rw [show 8 = 4 + 4 from rfl, ← List.drop_drop, List.take_append_drop]
      _ = rest := List.take_append_drop 4 rest

end Mirror

/-! ### Any history -/

/-- A history of the block file: `log` pairs each entry of the index with the
bytes appended for it. An append whose record the file has no room for changes
nothing. -/
inductive BlockFileRun (network : Bytes) : Bytes → Index → List (IndexEntry × Bytes) → Prop
  | fresh : BlockFileRun network [] (Index.new network) []
  | appended {dat index log height hash bytes dat' index' e} :
      BlockFileRun network dat index log → bytes.length < 2 ^ 32 →
      appendBlock .whole dat index height hash bytes = ((dat', index'), .ok ()) →
      index'.blocks = index.blocks ++ [e] → BlockFileRun network dat' index' (log ++ [(e, bytes)])
  | refused {dat index log height hash bytes dat' index' e} : BlockFileRun network dat index log →
      appendBlock .whole dat index height hash bytes = ((dat', index'), .err e) →
      BlockFileRun network dat' index' log
  | truncated {dat index log height} : BlockFileRun network dat index log →
      BlockFileRun network (truncateFrom dat index height).1 (truncateFrom dat index height).2
        (log.take (truncateFrom dat index height).2.blocks.length)

/-- The bytes of a log's records. -/
def logBytes (log : List (IndexEntry × Bytes)) : Bytes :=
  log.flatMap fun p => blockRecord p.1.height p.2

/-- The file is its log: the index names the entries, the file is their
records, and each entry says where its record is. -/
structure Framed (dat : Bytes) (index : Index) (log : List (IndexEntry × Bytes)) : Prop where
  blocks : index.blocks = log.map Prod.fst
  file : dat = logBytes log
  fits : dat.length < 2 ^ 64
  placed : ∀ pre p post, log = pre ++ p :: post →
    p.1 = indexEntry (logBytes pre).length p.1.height p.1.hash p.2 ∧ p.2.length < 2 ^ 32
  last : index.to = (log.getLast?.map fun p => (p.1.height.toNat : ℤ)).getD (index.from - 1)

theorem logBytes_append (log log' : List (IndexEntry × Bytes)) :
    logBytes (log ++ log') = logBytes log ++ logBytes log' := List.flatMap_append

theorem Framed.append {dat dat' : Bytes} {index index' : Index} {log : List (IndexEntry × Bytes)}
    (h : Framed dat index log) {height : UInt32} {hash bytes : Bytes} {e : IndexEntry}
    (hsize : bytes.length < 2 ^ 32)
    (happ : appendBlock .whole dat index height hash bytes = ((dat', index'), .ok ()))
    (hentry : index'.blocks = index.blocks ++ [e]) : Framed dat' index' (log ++ [(e, bytes)]) := by
  unfold appendBlock at happ
  dsimp only at happ
  split_ifs at happ with hbig
  · simp at happ
  · simp only [Prod.mk.injEq, and_true] at happ
    obtain ⟨rfl, rfl⟩ := happ
    have he : e = indexEntry dat.length height hash bytes := by
      simpa using (List.append_cancel_left hentry).symm
    have hheight : e.height = height := by rw [he]; rfl
    have hhash : e.hash = hash := by rw [he]; rfl
    refine ⟨?_, ?_, by omega, ?_, ?_⟩
    · rw [hentry, h.blocks, List.map_append]
      rfl
    · rw [logBytes_append, ← h.file]
      unfold logBytes
      rw [List.flatMap_singleton, hheight]
    · intro pre p post hsplit
      rcases List.eq_nil_or_concat post with rfl | ⟨post', q, rfl⟩
      · -- the entry just appended
        obtain ⟨rfl, hp⟩ := List.append_inj' hsplit rfl
        obtain rfl := List.singleton_injective hp
        dsimp only
        rw [← h.file, hheight, hhash]
        exact ⟨he, hsize⟩
      · rw [List.concat_eq_append, ← List.cons_append, ← List.append_assoc] at hsplit
        exact h.placed pre p post' (List.append_inj_left' hsplit rfl)
    · rw [List.getLast?_concat, Option.map_some, Option.getD_some, hheight]

theorem Framed.truncate {dat : Bytes} {index : Index} {log : List (IndexEntry × Bytes)}
    (h : Framed dat index log) (height : UInt32) :
    Framed (truncateFrom dat index height).1 (truncateFrom dat index height).2
      (log.take (truncateFrom dat index height).2.blocks.length) := by
  have hwhole : log.take index.blocks.length = log := by
    rw [h.blocks, List.length_map, List.take_length]
  unfold truncateFrom
  cases hdrop : index.blocks.dropWhile fun b => b.height != height with
  | nil =>
    dsimp only
    rw [hwhole]
    exact h
  | cons e later =>
    dsimp only
    set kept := index.blocks.takeWhile fun b => b.height != height with hkept
    have hsplit : index.blocks = kept ++ e :: later := by
      rw [hkept, ← hdrop, List.takeWhile_append_dropWhile]
    have hlen : kept.length < log.length := by
      have hcount := congrArg List.length hsplit
      rw [h.blocks, List.length_map, List.length_append, List.length_cons] at hcount
      omega
    have hmap : (log.take kept.length).map Prod.fst = kept := by
      rw [List.map_take, ← h.blocks, hsplit, List.take_left]
    have hcut : log = log.take kept.length ++ log[kept.length] :: log.drop (kept.length + 1) := by
      rw [← List.drop_eq_getElem_cons hlen, List.take_append_drop]
    have hentry : log[kept.length].1 = e := by
      have hget : (log.map Prod.fst)[kept.length]? = some e := by
        rw [← h.blocks, hsplit, List.getElem?_append_right le_rfl, Nat.sub_self,
          List.getElem?_cons_zero]
      rw [List.getElem?_map, List.getElem?_eq_getElem hlen, Option.map_some] at hget
      exact Option.some.inj hget
    have hoffset : e.offset = (logBytes (log.take kept.length)).length := by
      have hplaced := (h.placed _ _ _ hcut).1
      rw [hentry] at hplaced
      rw [hplaced]
      rfl
    have hfile : setLen e.offset dat = logBytes (log.take kept.length) := by
      have hdat : dat = logBytes (log.take kept.length) ++ logBytes (log.drop kept.length) := by
        rw [← logBytes_append, List.take_append_drop, ← h.file]
      have hle : e.offset ≤ dat.length := by
        rw [hdat, List.length_append, ← hoffset]
        omega
      unfold setLen
      rw [Nat.sub_eq_zero_of_le hle, List.replicate_zero, List.append_nil, hdat, hoffset,
        List.take_left]
    refine ⟨hmap.symm, hfile, ?_, ?_, ?_⟩
    · have hfits := h.fits
      rw [hfile]
      have hdat := congrArg List.length h.file
      rw [← List.take_append_drop kept.length log, logBytes_append, List.length_append] at hdat
      omega
    · intro pre p post heq
      refine h.placed pre p (post ++ log.drop kept.length) ?_
      rw [← List.cons_append, ← List.append_assoc, ← heq, List.take_append_drop]
    · have hlast : kept.getLast? = ((log.take kept.length).getLast?).map Prod.fst := by
        rw [← List.getLast?_map, hmap]
      rw [hlast]
      cases (log.take kept.length).getLast? with
      | none => rfl
      | some p => rfl

/-- **Every history keeps the file its log.** -/
theorem BlockFileRun.framed {network dat : Bytes} {index : Index} {log : List (IndexEntry × Bytes)}
    (h : BlockFileRun network dat index log) : Framed dat index log := by
  induction h with
  | fresh =>
    refine ⟨rfl, rfl, by decide, ?_, rfl⟩
    intro pre p post heq
    simp at heq
  | appended _ hsize happ hentry ih => exact ih.append hsize happ hentry
  | @refused dat index log height hash bytes dat' index' e _ happ ih =>
    unfold appendBlock at happ
    dsimp only at happ
    split_ifs at happ with hbig
    · simp only [Prod.mk.injEq] at happ
      obtain ⟨⟨rfl, rfl⟩, -⟩ := happ
      exact ih
    · simp at happ
  | truncated _ ih => exact ih.truncate _

/-! ### The two readers -/

/-- Every entry reads back the bytes appended for it. -/
theorem Framed.readBlock {dat : Bytes} {index : Index} {log : List (IndexEntry × Bytes)}
    (h : Framed dat index log) {p : IndexEntry × Bytes} (hp : p ∈ log) :
    readBlock dat p.1 = .ok p.2 := by
  obtain ⟨pre, post, hsplit⟩ := List.append_of_mem hp
  obtain ⟨hentry, hsize⟩ := h.placed pre p post hsplit
  have hfile : dat = (logBytes pre ++ blockRecord p.1.height p.2) ++ logBytes post := by
    rw [h.file, hsplit, logBytes_append, List.append_assoc]
    rfl
  have hfits := h.fits
  rw [hfile, List.length_append] at hfits
  rw [hfile]
  refine readBlock_append _ ?_
  have hread := readBlock_appended p.1.hash hsize (Nat.lt_of_le_of_lt (Nat.le_add_right _ _) hfits)
  rwa [← hentry] at hread

theorem recordsFrom_logBytes : ∀ {log : List (IndexEntry × Bytes)} {start : ℕ},
    (∀ p ∈ log, p.2.length < 2 ^ 32) → start + (logBytes log).length < 2 ^ 64 →
    Mirror.recordsFrom start (logBytes log) =
      .ok (log.map fun p => ⟨p.1.height, p.2⟩)
  | [], start, _, _ => Mirror.recordsFrom_nil start
  | p :: log, start, hsize, hfits => by
    have hcons : logBytes (p :: log) = Mirror.encodeRecord p.1.height p.2 ++ logBytes log := rfl
    rw [hcons] at hfits ⊢
    refine Mirror.recordsFrom_record (hsize p List.mem_cons_self) hfits ?_
    rw [List.length_append] at hfits
    exact recordsFrom_logBytes (fun q hq => hsize q (List.mem_cons_of_mem _ hq)) (by omega)

/-- The mirror reads the entries and their bytes in order. -/
theorem Framed.records {dat : Bytes} {index : Index} {log : List (IndexEntry × Bytes)}
    (h : Framed dat index log) :
    Mirror.records dat = .ok (log.map fun p => ⟨p.1.height, p.2⟩) := by
  have hfits := h.fits
  unfold Mirror.records
  rw [h.file] at hfits ⊢
  refine recordsFrom_logBytes ?_ (by omega)
  intro p hp
  obtain ⟨pre, post, hsplit⟩ := List.append_of_mem hp
  exact (h.placed pre p post hsplit).2

/-- **The block file is a faithful log.** After any history every entry of the
index reads back the bytes appended for it, `to` is the last entry's height,
and the mirror reads the same heights and bytes in order; and a file the mirror
takes is the records it read. -/
theorem block_file_faithful :
    (∀ (network dat : Bytes) (index : Index) (log : List (IndexEntry × Bytes)),
      BlockFileRun network dat index log →
        index.blocks = log.map Prod.fst ∧
        (∀ p ∈ log, readBlock dat p.1 = .ok p.2) ∧
        index.to = (index.blocks.getLast?.map fun e => (e.height.toNat : ℤ)).getD (index.from - 1) ∧
        Mirror.records dat = .ok (log.map fun p => ⟨p.1.height, p.2⟩)) ∧
    ∀ (dat : Bytes) (rs : List Mirror.Record), Mirror.records dat = .ok rs →
      rs.flatMap (fun r => Mirror.encodeRecord r.height r.bytes) = dat := by
  refine ⟨?_, fun dat rs h => Mirror.flatMap_encodeRecord h⟩
  intro network dat index log hrun
  have hframed := hrun.framed
  refine ⟨hframed.blocks, fun p hp => hframed.readBlock hp, ?_, hframed.records⟩
  rw [hframed.last, hframed.blocks, List.getLast?_map, Option.map_map]
  rfl

/-- One block appended, a second one, and the second cut off again. -/
theorem block_file_faithful_sample :
    ∃ dat index e, BlockFileRun [] dat index [(e, [1, 2])] ∧ readBlock dat e = .ok [1, 2] ∧
      Mirror.records dat = .ok [⟨0, [1, 2]⟩] ∧
      Mirror.encodeRecord 0 [1, 2] ++ [] = dat := by
  have happ : appendBlock .whole [] (Index.new []) 0 [] [1, 2] =
      ((blockRecord 0 [1, 2], ⟨[], 0, 0, [indexEntry 0 0 [] [1, 2]]⟩), .ok ()) := rfl
  have happ' : appendBlock .whole (blockRecord 0 [1, 2]) ⟨[], 0, 0, [indexEntry 0 0 [] [1, 2]]⟩
      1 [] [3] = ((blockRecord 0 [1, 2] ++ blockRecord 1 [3],
        ⟨[], 0, 1, [indexEntry 0 0 [] [1, 2], indexEntry 10 1 [] [3]]⟩), .ok ()) := rfl
  have htwo := BlockFileRun.appended (.appended .fresh (by decide) happ rfl) (by decide) happ' rfl
  have hcut : BlockFileRun [] (truncateFrom _ _ 1).1 (truncateFrom _ _ 1).2 _ := .truncated htwo
  obtain ⟨hfaithful, hback⟩ := block_file_faithful
  obtain ⟨-, hread, -, hrecords⟩ := hfaithful _ _ _ _ hcut
  refine ⟨_, _, indexEntry 0 0 [] [1, 2], hcut, hread _ List.mem_cons_self, hrecords, ?_⟩
  exact hback _ _ hrecords

end Sidestr
