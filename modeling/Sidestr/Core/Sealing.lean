/-
# Sealing

A block is signed over its coinbase stripped of the solution; sealing pushes
the solution behind the witness commitment, recomputes the merkle root and
finds a nonce. The commitment output stays the one it was and is cut back to
the same 38 bytes, so what was signed does not change, the template keeps its
identity, the solution reads back, and a sealed block is sealed again as the
block before it.

The witness is written with CompactSize lengths of at most four bytes, and
read back strictly. The two are inverse where every item is shorter than
`2 ^ 32`; the length of a longer one does not fit the four bytes.

Key definitions: `LawfulHeader`.
Key theorems: `readCompact_compactSize`, `encodeWitness_of_decodeWitness`,
`decodeWitness_encodeWitness`, `sealing_keeps_signed`.
-/
import Sidestr.Core.BlockFile
import Sidestr.Core.Sample

namespace Sidestr

/-! ### CompactSize -/

/-- A size written is read, whatever follows. -/
theorem readCompact_compactSize {n : ℕ} (h : n < 2 ^ 32) (rest : Bytes) :
    readCompact (compactSize n ++ rest) = some (n, rest) := by
  unfold compactSize
  by_cases h1 : n ≤ 0xfc
  · have hbyte : (UInt8.ofNat n).toNat = n := by
      rw [UInt8.toNat_ofNat']
      omega
    rw [if_pos h1, List.singleton_append]
    unfold readCompact
    dsimp only
    rw [hbyte, if_pos h1]
  · rw [if_neg h1]
    by_cases h2 : n ≤ 0xffff
    · have hread : leNat (leBytes 2 n) = n := leNat_leBytes (by omega)
      rw [if_pos h2]
      simp only [leBytes, List.cons_append, List.nil_append] at hread ⊢
      unfold readCompact
      dsimp only
      rw [if_neg (by decide), if_pos rfl, hread, if_pos (by omega)]
    · have hread : leNat (leBytes 4 n) = n := leNat_leBytes (by omega)
      rw [if_neg h2]
      simp only [leBytes, List.cons_append, List.nil_append] at hread ⊢
      unfold readCompact
      dsimp only
      rw [if_neg (by decide), if_neg (by decide), if_pos rfl, hread, if_pos (by omega)]

/-- A size read is the size as it is written: no other bytes are read as one. -/
theorem readCompact_some {b rest : Bytes} {n : ℕ} (h : readCompact b = some (n, rest)) :
    b = compactSize n ++ rest ∧ n < 2 ^ 32 := by
  unfold readCompact at h
  match b with
  | [] => simp at h
  | a :: l =>
    dsimp only at h
    by_cases h1 : a.toNat ≤ 0xfc
    · rw [if_pos h1, Option.some.injEq, Prod.mk.injEq] at h
      obtain ⟨rfl, rfl⟩ := h
      unfold compactSize
      rw [if_pos h1, UInt8.ofNat_toNat]
      exact ⟨rfl, by omega⟩
    · rw [if_neg h1] at h
      by_cases h2 : a = 0xfd
      · rw [if_pos h2] at h
        match l with
        | [] => simp at h
        | [_] => simp at h
        | b :: c :: l =>
          dsimp only at h
          split_ifs at h with hmin
          rw [Option.some.injEq, Prod.mk.injEq] at h
          obtain ⟨rfl, rfl⟩ := h
          have hlt : leNat [b, c] < 65536 := (leNat_lt [b, c]).trans_le (by simp)
          have hback : leBytes 2 (leNat [b, c]) = [b, c] := leBytes_leNat [b, c]
          unfold compactSize
          rw [if_neg (by omega), if_pos (by omega), hback, h2]
          exact ⟨rfl, by omega⟩
      · rw [if_neg h2] at h
        by_cases h3 : a = 0xfe
        · rw [if_pos h3] at h
          match l with
          | [] => simp at h
          | [_] => simp at h
          | [_, _] => simp at h
          | [_, _, _] => simp at h
          | b :: c :: d :: e :: l =>
            dsimp only at h
            split_ifs at h with hmin
            rw [Option.some.injEq, Prod.mk.injEq] at h
            obtain ⟨rfl, rfl⟩ := h
            have hlt : leNat [b, c, d, e] < 4294967296 :=
              (leNat_lt [b, c, d, e]).trans_le (by simp)
            have hback : leBytes 4 (leNat [b, c, d, e]) = [b, c, d, e] := leBytes_leNat [b, c, d, e]
            unfold compactSize
            rw [if_neg (by omega), if_neg (by omega), hback, h3]
            exact ⟨rfl, by omega⟩
        · rw [if_neg h3] at h
          simp at h

/-! ### The witness -/

/-- The items of a witness behind their lengths. -/
def encodeItems (items : List Bytes) : Bytes :=
  items.flatMap fun it => compactSize it.length ++ it

theorem decodeItems_encodeItems : ∀ (items : List Bytes) (rest : Bytes),
    (∀ it ∈ items, it.length < 2 ^ 32) →
    decodeItems items.length (encodeItems items ++ rest) = some (items, rest)
  | [], rest, _ => rfl
  | it :: items, rest, h => by
    have hcons : encodeItems (it :: items) ++ rest =
        compactSize it.length ++ (it ++ (encodeItems items ++ rest)) := by
      unfold encodeItems
      rw [List.flatMap_cons, List.append_assoc, List.append_assoc]
    have ih := decodeItems_encodeItems items rest fun q hq => h q (List.mem_cons_of_mem _ hq)
    rw [hcons, List.length_cons, decodeItems,
      readCompact_compactSize (h it List.mem_cons_self)]
    simp [ih]

theorem decodeItems_some : ∀ {n : ℕ} {b rest : Bytes} {items : List Bytes},
    decodeItems n b = some (items, rest) → items.length = n ∧ b = encodeItems items ++ rest
  | 0, b, rest, items, h => by
    rw [decodeItems, Option.some.injEq, Prod.mk.injEq] at h
    obtain ⟨rfl, rfl⟩ := h
    exact ⟨rfl, rfl⟩
  | n + 1, b, rest, items, h => by
    unfold decodeItems at h
    obtain ⟨⟨len, after⟩, hsize, h⟩ := Option.bind_eq_some_iff.mp h
    dsimp only at h
    split_ifs at h with hshort
    obtain ⟨⟨items', rest'⟩, hitems, h⟩ := Option.bind_eq_some_iff.mp h
    obtain ⟨⟨its, r⟩, hrec, hmap⟩ := Option.map_eq_some_iff.mp hitems
    simp only [Prod.mk.injEq] at hmap
    simp only [Option.some.injEq, Prod.mk.injEq] at h
    obtain ⟨rfl, rfl⟩ := h
    obtain ⟨rfl, rfl⟩ := hmap
    obtain ⟨hlen, hbytes⟩ := decodeItems_some hrec
    obtain ⟨rfl, -⟩ := readCompact_some hsize
    have htake : (after.take len).length = len := by
      rw [List.length_take]
      omega
    refine ⟨by rw [List.length_cons, hlen], ?_⟩
    unfold encodeItems at hbytes ⊢
    rw [List.flatMap_cons, htake, List.append_assoc, List.append_assoc, ← hbytes,
      List.take_append_drop]

/-- **The reader takes only what the writer writes.** -/
theorem encodeWitness_of_decodeWitness {b : Bytes} {items : List Bytes}
    (h : decodeWitness b = some items) : encodeWitness items = b := by
  unfold decodeWitness at h
  obtain ⟨⟨n, rest⟩, hsize, h⟩ := Option.bind_eq_some_iff.mp h
  dsimp only at h
  split_ifs at h with hmany
  obtain ⟨⟨its, after⟩, hitems, h⟩ := Option.bind_eq_some_iff.mp h
  dsimp only at h
  split_ifs at h with hnil
  obtain rfl := Option.some.inj h
  obtain ⟨rfl, rfl⟩ := decodeItems_some hitems
  rw [(readCompact_some hsize).1, hnil, List.append_nil]
  rfl

/-- **The writer is read back**, up to 256 items shorter than `2 ^ 32`. -/
theorem decodeWitness_encodeWitness {items : List Bytes} (hmany : items.length ≤ 256)
    (hsize : ∀ it ∈ items, it.length < 2 ^ 32) :
    decodeWitness (encodeWitness items) = some items := by
  have hitems := decodeItems_encodeItems items [] hsize
  rw [List.append_nil] at hitems
  have henc : encodeWitness items = compactSize items.length ++ encodeItems items := rfl
  unfold decodeWitness
  rw [henc, readCompact_compactSize (by omega), Option.bind_eq_bind, Option.bind_some]
  dsimp only
  rw [if_neg (by omega), hitems]
  rfl

/-- An item of `2 ^ 32` bytes is written with the length 0, which is not read. -/
theorem decodeWitness_long {it : Bytes} (h : it.length = 2 ^ 32) :
    decodeWitness (encodeWitness [it]) = none := by
  have hsize : compactSize it.length = [0xfe, 0, 0, 0, 0] := by
    rw [h]
    decide
  have henc : encodeWitness [it] = 1 :: 0xfe :: 0 :: 0 :: 0 :: 0 :: it := by
    unfold encodeWitness
    rw [List.flatMap_singleton, hsize]
    rfl
  rw [henc]
  rfl

theorem decodeWitness_long_item : ¬ ∀ items : List Bytes, items.length ≤ 256 →
    decodeWitness (encodeWitness items) = some items := by
  obtain ⟨it, hlen⟩ : ∃ it : Bytes, it.length = 2 ^ 32 := ⟨_, List.length_replicate (a := 0)⟩
  intro hall
  have hread := hall [it] (Nat.one_le_ofNat)
  rw [decodeWitness_long hlen] at hread
  simp at hread

/-! ### The commitment output -/

/-- A commitment with other bytes behind its 38 is a commitment. -/
theorem isCommitment_take {spk : Bytes} (h : isCommitment spk = true) (more : Bytes) :
    isCommitment (spk.take commitmentLen ++ more) = true := by
  unfold isCommitment at h ⊢
  rw [Bool.and_eq_true, decide_eq_true_eq] at h
  obtain ⟨hlen, hprefix⟩ := h
  obtain ⟨rest, hrest⟩ := Option.isSome_iff_exists.mp hprefix
  have hspk := eq_append_of_stripPrefix hrest
  have hsix : commitmentPrefix.length = 6 := rfl
  have h38 : commitmentLen = 38 := rfl
  have htake : (spk.take commitmentLen).length = commitmentLen := by
    rw [List.length_take]
    omega
  have hsplit : spk.take commitmentLen ++ more =
      commitmentPrefix ++ (rest.take (commitmentLen - 6) ++ more) := by
    rw [hspk, List.take_append, hsix, List.take_of_length_le (by rw [hsix, h38]; omega),
      List.append_assoc]
  rw [Bool.and_eq_true, decide_eq_true_eq, List.length_append, htake]
  refine ⟨Nat.le_add_right _ _, ?_⟩
  rw [hsplit, stripPrefix_append]
  rfl

/-- The output found is a commitment, and stays the one found when its script
is another commitment. -/
theorem lastCommitment_modify {script : Bytes} (hscript : isCommitment script = true) :
    ∀ {outs : List TxOut} {i j : ℕ} {spk : Bytes}, lastCommitment i outs = some (j, spk) →
    isCommitment spk = true ∧ i ≤ j ∧ lastCommitment i
      (outs.modify (j - i) fun o => { o with scriptPubkey := script }) = some (j, script)
  | [], _, _, _, h => by simp [lastCommitment] at h
  | o :: outs, i, j, spk, h => by
    unfold lastCommitment at h
    cases hl : lastCommitment (i + 1) outs with
    | some r =>
      simp only [hl] at h
      obtain ⟨hspk, hle, hkept⟩ := lastCommitment_modify hscript (h ▸ hl)
      have hsub : j - i = j - (i + 1) + 1 := by omega
      refine ⟨hspk, by omega, ?_⟩
      rw [hsub, List.modify_succ_cons]
      unfold lastCommitment
      rw [hkept]
    | none =>
      simp only [hl] at h
      split_ifs at h with hc
      rw [Option.some.injEq, Prod.mk.injEq] at h
      obtain ⟨rfl, rfl⟩ := h
      refine ⟨hc, le_rfl, ?_⟩
      rw [Nat.sub_self, List.modify_zero_cons]
      unfold lastCommitment
      simp only [hl]
      rw [if_pos hscript]

/-- The commitment output after its script is replaced by another commitment. -/
theorem commitmentOutputOf_setScript {cb : Transaction} {index : ℕ} {spk script : Bytes}
    (h : commitmentOutputOf cb = some (index, spk)) (hscript : isCommitment script = true) :
    commitmentOutputOf (setScript cb index script) = some (index, script) :=
  (lastCommitment_modify hscript h).2.2

theorem setScript_setScript (cb : Transaction) (index : ℕ) (script script' : Bytes) :
    setScript (setScript cb index script) index script' = setScript cb index script' := by
  unfold setScript
  dsimp only
  rw [List.modify_modify_eq]
  rfl

/-- The coinbase that carries a push behind its commitment. -/
theorem sealedCoinbase_facts {cb : Transaction} {index : ℕ} {spk : Bytes}
    (h : commitmentOutputOf cb = some (index, spk)) (more : Bytes) :
    commitmentOutputOf (setScript cb index (spk.take commitmentLen ++ more)) =
        some (index, spk.take commitmentLen ++ more) ∧
      (spk.take commitmentLen ++ more).take commitmentLen = spk.take commitmentLen ∧
      (spk.take commitmentLen ++ more).drop commitmentLen = more ∧
      strippedCoinbase (setScript cb index (spk.take commitmentLen ++ more)) = strippedCoinbase cb := by
  have hspk : isCommitment spk = true := (lastCommitment_modify (by decide : isCommitment
    (commitmentPrefix ++ List.replicate 32 0) = true) h).1
  have hlen : commitmentLen ≤ spk.length := by
    unfold isCommitment at hspk
    rw [Bool.and_eq_true, decide_eq_true_eq] at hspk
    exact hspk.1
  have htake : (spk.take commitmentLen).length = commitmentLen := by
    rw [List.length_take]
    omega
  have hcut : (spk.take commitmentLen ++ more).take commitmentLen = spk.take commitmentLen :=
    List.take_left' htake
  have hfound := commitmentOutputOf_setScript h (isCommitment_take hspk more)
  refine ⟨hfound, hcut, List.drop_left' htake, ?_⟩
  unfold strippedCoinbase
  rw [hfound, h]
  dsimp only
  rw [hcut, setScript_setScript]

/-! ### The push -/

/-- The push opcode of `with_solution` before this many bytes. -/
def pushOp (len : ℕ) : Bytes :=
  if len ≤ 75 then [UInt8.ofNat len]
  else if len ≤ 255 then [0x4c, UInt8.ofNat len]
  else 0x4d :: leBytes 2 len

/-- A push of 1 to 65,535 bytes is read whole. -/
theorem solutionPush_pushOp {push : Bytes} (hpos : push ≠ []) (hlen : push.length ≤ 65535) :
    solutionPush (pushOp push.length ++ push) = some push := by
  have h0 : 0 < push.length := List.length_pos_iff.mpr hpos
  unfold pushOp
  by_cases h75 : push.length ≤ 75
  · have hbyte : (UInt8.ofNat push.length).toNat = push.length := by
      rw [UInt8.toNat_ofNat']
      omega
    rw [if_pos h75, List.singleton_append]
    unfold solutionPush
    dsimp only
    rw [if_pos (by omega), Option.bind_some]
    dsimp only
    rw [hbyte, if_neg (by omega)]
  · rw [if_neg h75]
    by_cases h255 : push.length ≤ 255
    · have hbyte : (UInt8.ofNat push.length).toNat = push.length := by
        rw [UInt8.toNat_ofNat']
        omega
      rw [if_pos h255]
      unfold solutionPush
      simp only [List.cons_append, List.nil_append]
      rw [if_neg (by decide), if_pos trivial, Option.bind_some]
      dsimp only
      rw [hbyte, if_neg (by omega)]
    · have hread : leNat (leBytes 2 push.length) = push.length := leNat_leBytes (by omega)
      rw [if_neg h255]
      unfold solutionPush
      simp only [leBytes, List.cons_append, List.nil_append] at hread ⊢
      rw [if_neg (by decide), if_neg (by decide), if_pos trivial, Option.bind_some]
      dsimp only
      rw [hread, if_neg (by omega)]

theorem stripPrefix_signetHeader (body : Bytes) :
    stripPrefix signetHeader (signetHeader ++ body) = some body := stripPrefix_append _ _

/-! ### Sealing a block -/

/-- Setting the merkle root and the nonce touches only those fields, and the
signed prefix excludes the nonce. -/
class LawfulHeader (H : Type) [HeaderFamily H] : Prop where
  setMerkleRoot_setMerkleRoot : ∀ (h : H) (r r' : Hash256),
    HeaderFamily.setMerkleRoot (HeaderFamily.setMerkleRoot h r) r' = HeaderFamily.setMerkleRoot h r'
  setMerkleRoot_setNonce : ∀ (h : H) (n : UInt32) (r : Hash256),
    HeaderFamily.setMerkleRoot (HeaderFamily.setNonce h n) r =
      HeaderFamily.setNonce (HeaderFamily.setMerkleRoot h r) n
  setNonce_setNonce : ∀ (h : H) (n n' : UInt32),
    HeaderFamily.setNonce (HeaderFamily.setNonce h n) n' = HeaderFamily.setNonce h n'
  signedPrefix_setNonce : ∀ (h : H) (n : UInt32),
    HeaderFamily.signedPrefix (HeaderFamily.setNonce h n) = HeaderFamily.signedPrefix h
  headerHeight_setMerkleRoot : ∀ (h : H) (r : Hash256),
    HeaderFamily.headerHeight (HeaderFamily.setMerkleRoot h r) = HeaderFamily.headerHeight h
  headerHeight_setNonce : ∀ (h : H) (n : UInt32),
    HeaderFamily.headerHeight (HeaderFamily.setNonce h n) = HeaderFamily.headerHeight h
  prev_setMerkleRoot : ∀ (h : H) (r : Hash256),
    HeaderFamily.prev (HeaderFamily.setMerkleRoot h r) = HeaderFamily.prev h
  prev_setNonce : ∀ (h : H) (n : UInt32),
    HeaderFamily.prev (HeaderFamily.setNonce h n) = HeaderFamily.prev h

section

variable [Bitcoin] {H : Type} [HeaderFamily H]

/-- A nonce found is a nonce set. -/
theorem grind_some : ∀ {k start : ℕ} {header header' : H}, grind k start header = some header' →
    ∃ n, header' = HeaderFamily.setNonce header n
  | 0, _, _, _, h => by simp [grind] at h
  | k + 1, start, header, header', h => by
    unfold grind at h
    dsimp only at h
    split_ifs at h
    · exact ⟨_, (Option.some.inj h).symm⟩
    · exact grind_some h

/-- The search does not depend on the nonce it starts from. -/
theorem grind_setNonce [LawfulHeader H] (header : H) (n : UInt32) :
    ∀ k start : ℕ, grind k start (HeaderFamily.setNonce header n) = grind k start header
  | 0, _ => rfl
  | k + 1, start => by
    unfold grind
    rw [LawfulHeader.setNonce_setNonce, grind_setNonce header n k (start + 1)]

omit [Bitcoin] [HeaderFamily H] in
/-- The block with a solution, where there is room for it. -/
theorem withSolution_eq {block : Block H} {cb : Transaction} {rest : List Transaction}
    {index : ℕ} {spk : Bytes} (htx : block.txdata = cb :: rest)
    (hfound : commitmentOutputOf cb = some (index, spk)) (items : List Bytes) :
    withSolution block items =
      if 65535 < (signetHeader ++ encodeWitness items).length then
        .err (.block "solution too long for one push")
      else .ok ⟨block.header, setScript cb index (spk.take commitmentLen ++
        (pushOp (signetHeader ++ encodeWitness items).length ++
          (signetHeader ++ encodeWitness items))) :: rest⟩ := by
  unfold withSolution
  rw [htx]
  simp only [hfound, List.append_assoc]
  rfl

/-- What a seal is: the solution in place, the merkle root over it, a nonce. -/
theorem sealBlock_ok {block sealed : Block H} {items : List Bytes}
    (h : sealBlock block items = .ok sealed) :
    ∃ cb rest index spk nonce, block.txdata = cb :: rest ∧
      commitmentOutputOf cb = some (index, spk) ∧
      (signetHeader ++ encodeWitness items).length ≤ 65535 ∧
      sealed.txdata = setScript cb index (spk.take commitmentLen ++
        (pushOp (signetHeader ++ encodeWitness items).length ++
          (signetHeader ++ encodeWitness items))) :: rest ∧
      sealed.header = HeaderFamily.setNonce
        (HeaderFamily.setMerkleRoot block.header (merkleRootOfTxs sealed.txdata)) nonce := by
  unfold sealBlock at h
  obtain ⟨pushed, hpush, h⟩ := Res.bind_eq_ok.mp h
  cases htx : block.txdata with
  | nil =>
    unfold withSolution at hpush
    rw [htx] at hpush
    simp at hpush
  | cons cb rest =>
    cases hfound : commitmentOutputOf cb with
    | none =>
      unfold withSolution at hpush
      rw [htx] at hpush
      simp [hfound] at hpush
    | some r =>
      obtain ⟨index, spk⟩ := r
      rw [withSolution_eq htx hfound] at hpush
      split_ifs at hpush with hlong
      rw [Res.ok.injEq] at hpush
      rw [← hpush] at h
      dsimp only at h
      split at h
      · rename_i header' hgrind
        rw [Res.ok.injEq] at h
        obtain ⟨nonce, hnonce⟩ := grind_some hgrind
        refine ⟨cb, rest, index, spk, nonce, rfl, hfound, Nat.not_lt.mp hlong, ?_, ?_⟩
        · rw [← h]
        · rw [← h]
          exact hnonce
      · simp at h

/-- A sealed block: the solution reads back at the commitment output. -/
theorem solutionOf_sealed {block sealed : Block H} {items : List Bytes} (hmany : items.length ≤ 256)
    (h : sealBlock block items = .ok sealed) : solutionOf sealed = some items := by
  obtain ⟨cb, rest, index, spk, nonce, htx, hfound, hlen, hsealed, -⟩ := sealBlock_ok h
  obtain ⟨hfound', -, hdrop, -⟩ := sealedCoinbase_facts hfound
    (pushOp (signetHeader ++ encodeWitness items).length ++ (signetHeader ++ encodeWitness items))
  have hitems : ∀ it ∈ items, it.length < 2 ^ 32 := by
    intro it hit
    obtain ⟨pre, post, rfl⟩ := List.append_of_mem hit
    have henc : (encodeWitness (pre ++ it :: post)).length ≤ 65535 := by
      rw [List.length_append] at hlen
      omega
    unfold encodeWitness at henc
    rw [List.flatMap_append, List.flatMap_cons] at henc
    simp only [List.length_append] at henc
    omega
  unfold solutionOf
  rw [hsealed, List.head?_cons, Option.bind_eq_bind, Option.bind_some, hfound',
    Option.bind_eq_bind, Option.bind_some]
  dsimp only
  rw [hdrop, solutionPush_pushOp (by simp [signetHeader]) hlen]
  simp only [Option.bind_eq_bind, Option.bind_some, stripPrefix_signetHeader,
    decodeWitness_encodeWitness hmany hitems]

theorem blockData_sealed [LawfulHeader H] {block sealed : Block H} {items : List Bytes}
    (h : sealBlock block items = .ok sealed) : blockData sealed = blockData block := by
  obtain ⟨cb, rest, index, spk, nonce, htx, hfound, -, hsealed, hheader⟩ := sealBlock_ok h
  obtain ⟨-, -, -, hstripped⟩ := sealedCoinbase_facts hfound
    (pushOp (signetHeader ++ encodeWitness items).length ++ (signetHeader ++ encodeWitness items))
  unfold blockData
  rw [htx, hheader]
  generalize merkleRootOfTxs sealed.txdata = root
  rw [hsealed]
  dsimp only
  rw [hstripped, LawfulHeader.setMerkleRoot_setNonce, LawfulHeader.signedPrefix_setNonce,
    LawfulHeader.setMerkleRoot_setMerkleRoot]

theorem templateId_sealed [LawfulHeader H] {block sealed : Block H} {items : List Bytes}
    (h : sealBlock block items = .ok sealed) (chainId : Bytes) (genesisHash : Option BlockHash) :
    templateId sealed chainId genesisHash = templateId block chainId genesisHash := by
  obtain ⟨cb, rest, index, spk, nonce, htx, hfound, -, hsealed, hheader⟩ := sealBlock_ok h
  obtain ⟨-, -, -, hstripped⟩ := sealedCoinbase_facts hfound
    (pushOp (signetHeader ++ encodeWitness items).length ++ (signetHeader ++ encodeWitness items))
  have hheight : blockHeight sealed = blockHeight block := by
    unfold blockHeight
    rw [hheader, LawfulHeader.headerHeight_setNonce, LawfulHeader.headerHeight_setMerkleRoot, htx,
      hsealed]
    rfl
  unfold templateId
  rw [hheight, htx, hheader]
  generalize merkleRootOfTxs sealed.txdata = root
  rw [hsealed]
  dsimp only
  rw [hstripped, LawfulHeader.setMerkleRoot_setNonce, LawfulHeader.setNonce_setNonce,
    LawfulHeader.setMerkleRoot_setMerkleRoot, LawfulHeader.prev_setNonce,
    LawfulHeader.prev_setMerkleRoot]

/-- Sealing again is sealing the block before. -/
theorem sealBlock_sealed [LawfulHeader H] {block sealed : Block H} {items : List Bytes}
    (h : sealBlock block items = .ok sealed) (items' : List Bytes) :
    sealBlock sealed items' = sealBlock block items' := by
  obtain ⟨cb, rest, index, spk, nonce, htx, hfound, -, hsealed, hheader⟩ := sealBlock_ok h
  obtain ⟨hfound', hcut, -, -⟩ := sealedCoinbase_facts hfound
    (pushOp (signetHeader ++ encodeWitness items).length ++ (signetHeader ++ encodeWitness items))
  unfold sealBlock
  rw [withSolution_eq htx hfound, withSolution_eq hsealed hfound', hcut, setScript_setScript, hheader]
  split_ifs with hlong
  · rfl
  · simp only [Res.ok_bind, LawfulHeader.setMerkleRoot_setNonce,
      LawfulHeader.setMerkleRoot_setMerkleRoot, grind_setNonce]

/-- **Sealing does not change what was signed**, for witnesses whose items are
shorter than `2 ^ 32` bytes. -/
theorem sealing_keeps_signed [LawfulHeader H] :
    (∀ (block sealed : Block H) (items : List Bytes), items.length ≤ 256 →
      sealBlock block items = .ok sealed →
        blockData sealed = blockData block ∧
        (∀ chainId genesisHash,
          templateId sealed chainId genesisHash = templateId block chainId genesisHash) ∧
        solutionOf sealed = some items ∧
        (sealed.txdata.head?.bind commitmentOutputOf).map Prod.fst =
          (block.txdata.head?.bind commitmentOutputOf).map Prod.fst ∧
        ∀ items', sealBlock sealed items' = sealBlock block items') ∧
    (∀ (b : Bytes) (items : List Bytes), decodeWitness b = some items → encodeWitness items = b) ∧
    ∀ items : List Bytes, items.length ≤ 256 → (∀ it ∈ items, it.length < 2 ^ 32) →
      decodeWitness (encodeWitness items) = some items := by
  refine ⟨?_, fun b items => encodeWitness_of_decodeWitness,
    fun items => decodeWitness_encodeWitness⟩
  intro block sealed items hmany h
  refine ⟨blockData_sealed h, templateId_sealed h, solutionOf_sealed hmany h, ?_,
    sealBlock_sealed h⟩
  obtain ⟨cb, rest, index, spk, nonce, htx, hfound, -, hsealed, -⟩ := sealBlock_ok h
  obtain ⟨hfound', -⟩ := sealedCoinbase_facts hfound
    (pushOp (signetHeader ++ encodeWitness items).length ++ (signetHeader ++ encodeWitness items))
  rw [htx, hsealed, List.head?_cons, List.head?_cons, Option.bind_some, Option.bind_some, hfound,
    hfound']
  rfl

omit [Bitcoin] in
/-- The signed prefix: everything before the bits and the nonce. -/
theorem Header.take_encode (h : Header) : h.encode.take 72 =
    leBytes 4 h.version.toUInt32.toNat ++ wireBytes h.prevBlockhash ++ wireBytes h.merkleRoot ++
      leBytes 4 h.time.toNat := by
  unfold Header.encode
  rw [List.append_assoc _ (leBytes 4 _) (leBytes 4 _)]
  refine List.take_left' ?_
  simp only [List.length_append, wireBytes, length_leBytes]

/-- The stock header is lawful: the nonce is its last four bytes. -/
instance lawfulHeader : LawfulHeader Header where
  setMerkleRoot_setMerkleRoot _ _ _ := rfl
  setMerkleRoot_setNonce _ _ _ := rfl
  setNonce_setNonce _ _ _ := rfl
  signedPrefix_setNonce h n := by
    show (Header.encode { h with nonce := n }).take 72 = h.encode.take 72
    rw [Header.take_encode, Header.take_encode]
  headerHeight_setMerkleRoot _ _ := rfl
  headerHeight_setNonce _ _ := rfl
  prev_setMerkleRoot _ _ := rfl
  prev_setNonce _ _ := rfl

end

section

attribute [local instance] sampleBitcoin

/-- The sample's genesis, and its seal with a witness of one item. -/
def sampleSeal : Res Error (Block Header × Block Header) := do
  let block ← buildGenesisFor sampleDoc
  let sealed ← sealBlock block [[1, 2]]
  .ok (block, sealed)

set_option maxRecDepth 100000 in
theorem sampleSeal_run : sampleSeal.any (fun _ => true) = true := by decide +kernel

/-- The sample's genesis keeps its block data under a seal, and another seal
replaces it. -/
theorem sealing_keeps_signed_sample : (∃ block sealed : Block Header,
      sealBlock block [[1, 2]] = .ok sealed ∧ blockData sealed = blockData block ∧
      solutionOf sealed = some [[1, 2]] ∧ sealBlock sealed [[3]] = sealBlock block [[3]]) ∧
    encodeWitness [[7]] = [1, 1, 7] ∧ decodeWitness (encodeWitness [[7], []]) = some [[7], []] := by
  obtain ⟨hseal, hencode, hdecode⟩ := sealing_keeps_signed (H := Header)
  obtain ⟨⟨block, sealed⟩, hrun, -⟩ := Res.any_eq_true.mp sampleSeal_run
  unfold sampleSeal at hrun
  obtain ⟨_, -, hrun⟩ := Res.bind_eq_ok.mp hrun
  obtain ⟨_, hok, hrun⟩ := Res.bind_eq_ok.mp hrun
  rw [Res.ok.injEq, Prod.mk.injEq] at hrun
  obtain ⟨rfl, rfl⟩ := hrun
  obtain ⟨hdata, -, hsolution, -, hagain⟩ := hseal _ _ _ (by decide) hok
  exact ⟨⟨_, _, hok, hdata, hsolution, hagain _⟩, hencode [1, 1, 7] [[7]] (by decide),
    hdecode [[7], []] (by decide) (by decide)⟩

end

end Sidestr
