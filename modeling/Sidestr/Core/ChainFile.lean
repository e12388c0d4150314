/-
# A chain on disk

The chain in a directory is the chain in memory with its block file: opening
replays the blocks the index names, and every block accepted is applied, then
appended, then indexed. A failed append leaves the block applied and unnamed;
the index goes on with the next one, and no longer replays. As long as no block
is appended after one that was not, and no index is cut short, what is on disk
replays to the blocks applied, or the first of them.

Key definitions: `ChainFile`, `ChainFile.open`, `ChainFile.addBlock`,
`ChainFile.produce`, `FileRun`, `Unbroken`.
Key theorems: `apply_replayed`, `directory_replays`.
-/
import Sidestr.Core.BlockFile
import Sidestr.Core.Produce
import Sidestr.Core.Sample

namespace Sidestr

section

variable [Bitcoin] {H : Type} [HeaderFamily H]

/-- The chain with its block file: the state and the index in memory, and the
two files. -/
structure ChainFile (H : Type) where
  state : StateOf H Unit
  index : Index
  dat : Bytes
  idx : IndexFile

/-- The consensus bytes: the header, then the transaction vector. -/
def Block.encode (block : Block H) : Bytes :=
  HeaderFamily.encodeHeader block.header ++ compactSize block.txdata.length ++
    block.txdata.flatMap Bitcoin.serialize

namespace ChainFile

open Method

variable (decode : Bytes → Option (Block H))

/-! ### Opening -/

/-- One entry replayed: its block read, applied at its height, held to its hash. -/
def replayEntry (dat : Bytes) (now : UInt32) (s : StateOf H Unit) (e : IndexEntry) :
    Res DiskError (StateOf H Unit) := do
  let bytes ← readBlock dat e
  let block ← Res.okOr (.core (.encoding "block")) (decode bytes)
  match s.apply e.height block (some (parseHash e.hash)) (some now) with
  | .ok (s', .ok _) => .ok s'
  | .ok (_, .error err) => .err (.core err)
  | .err err => .err (.core err)
  | .panic => .panic

/-- The blocks an index names, replayed from the genesis. -/
def replay (doc : ChainDocument) (dat : Bytes) (index : Index) (now : UInt32) :
    Res DiskError (StateOf H Unit) :=
  match index.blocks with
  | [] => .err (.core (.chain "the block file has no genesis"))
  | first :: rest => do
    Res.refuseIf (first.height != 0) (.core (.chain "the block file does not start at the genesis"))
    let bytes ← readBlock dat first
    let genesis ← Res.okOr (.core (.encoding "block")) (decode bytes)
    match fromGenesisWithRules doc genesis (some (parseHash first.hash)) [] () with
    | .ok s => Res.foldlM (replayEntry decode dat now) s rest
    | .err err => .err (.core err)
    | .panic => .panic

/-- The chain of a directory; one with no index is made with its genesis, if
both writes succeed. -/
def «open» (doc : ChainDocument) (makeGenesis : Res Error (Block H)) (dat : Bytes)
    (idx : IndexFile) (now : UInt32) : Res DiskError (ChainFile H) := do
  match ← readIndex idx with
  | some index => do
    let state ← replay decode doc dat index now
    .ok ⟨state, index, dat, idx⟩
  | none =>
    match makeGenesis with
    | .ok genesis =>
      match fromGenesisWithRules doc genesis none [] () with
      | .ok state => do
        let hash := hashText (HeaderFamily.blockHash genesis.header)
        match appendBlock .whole dat (Index.new doc.id) 0 hash genesis.encode with
        | ((dat, index), .ok _) => .ok ⟨state, index, dat, .whole index⟩
        | (_, .err err) => .err err
        | (_, .panic) => .panic
      | .err err => .err (.core err)
      | .panic => .panic
    | .err err => .err (.core err)
    | .panic => .panic

/-! ### Adding -/

/-- A call on the state, beside the files. -/
def onState {α : Type} (x : Method Error (StateOf H Unit) α) :
    Method DiskError (ChainFile H) α := fun c =>
  match x c.state with
  | (s, .ok a) => ({ c with state := s }, .ok a)
  | (s, .err err) => ({ c with state := s }, .err (.core err))
  | (s, .panic) => ({ c with state := s }, .panic)

/-- Append the block, then write the index. -/
def write (a : Append) (w : IndexWrite) (height : UInt32) (hash : BlockHash) (bytes : Bytes) :
    Method DiskError (ChainFile H) Unit := fun c =>
  match appendBlock a c.dat c.index height (hashText hash) bytes with
  | ((dat, index), .ok _) =>
    match w with
    | .whole => (⟨c.state, index, dat, .whole index⟩, .ok ())
    | .kept => (⟨c.state, index, dat, c.idx⟩, .err .io)
    | .cut => (⟨c.state, index, dat, .cut⟩, .err .io)
  | ((dat, index), .err err) => (⟨c.state, index, dat, c.idx⟩, .err err)
  | ((dat, index), .panic) => (⟨c.state, index, dat, c.idx⟩, .panic)

/-- Accept a block from elsewhere: validated, applied, written. -/
def addBlock (bytes : Bytes) (expect : Option BlockHash) (now : UInt32) (a : Append)
    (w : IndexWrite) : Method DiskError (ChainFile H) Applied := do
  let block ← ofRes (Res.okOr (.core (.encoding "block")) (decode bytes))
  let r ← onState (StateOf.adding block expect (some now))
  write a w (UInt32.ofNat r.height) r.hash bytes
  pure r

/-- Build the next block, sign, apply, write. -/
def produce (key : SecretKey) (claims : List ClaimRequest) (now : UInt32) (a : Append)
    (w : IndexWrite) : Method DiskError (ChainFile H) Applied := do
  let p ← onState (StateOf.produce key { time := now, claims } (some now))
  write a w (UInt32.ofNat p.applied.height) p.applied.hash p.block.encode
  pure p.applied

end ChainFile

/-! ### Applied again -/

omit [Bitcoin] [HeaderFamily H] in
theorem SameChain.symm {σ : Type} {s t : StateOf H σ} (h : SameChain s t) : SameChain t s :=
  ⟨h.doc.symm, h.params.symm, h.bits.symm, h.challenge.symm, h.headers.symm, h.hashes.symm,
    h.utxo.symm, h.records.symm, h.extraRules.symm⟩

omit [Bitcoin] [HeaderFamily H] in
theorem SameChain.trans {σ : Type} {s t u : StateOf H σ} (h : SameChain s t) (h' : SameChain t u) :
    SameChain s u :=
  ⟨h'.doc.trans h.doc, h'.params.trans h.params, h'.bits.trans h.bits,
    h'.challenge.trans h.challenge, h'.headers.trans h.headers, h'.hashes.trans h.hashes,
    h'.utxo.trans h.utxo, h'.records.trans h.records, h'.extraRules.trans h.extraRules⟩

/-- Steps without a block stay on the chain. -/
theorem Quiet.sameChain {σ : Type} {s s' : StateOf H σ} (h : Quiet s s') : SameChain s s' := by
  have hall : ∀ {bs : List (Block H)} {s'' : StateOf H σ}, Steps s bs s'' → bs = [] →
      SameChain s s'' := by
    intro bs s'' hsteps
    induction hsteps with
    | refl => exact fun _ => .refl s
    | @step _ _ bs b _ hstep ih =>
      intro hnil
      rw [List.append_eq_nil_iff] at hnil
      obtain ⟨rfl, hb⟩ := hnil
      rcases hstep.cases with ⟨block, _, _, _, _, _, _, rfl, -⟩ | ⟨-, hsame, -⟩
      · cases hb
      · exact (ih rfl).trans hsame
  exact hall h rfl

/-- A judgement reads the chain only. -/
theorem judge_same {s t : StateOf H Unit} (h : SameChain s t) (height : UInt32) (block : Block H)
    (now : Option UInt32) : t.judge height block now = s.judge height block now := by
  unfold StateOf.judge StateOf.candidate StateOf.overlay StateOf.window
  rw [h.headers, h.params, h.challenge, h.doc, h.utxo, h.records, h.extraRules]

/-- A header not too far in the future is not, later. -/
theorem validateHeader_later {params : Params} {header : H} {height : ℕ} {prev : Option H}
    {window : List H} {now now' : ℕ} (hle : now ≤ now')
    (h : (validateHeader params header height prev window (some now)).ok = true) :
    (validateHeader params header height prev window (some now')).ok = true := by
  unfold validateHeader at h ⊢
  simp only [Option.map_some, Verdict.ok_append, Verdict.ok_cons, Bool.and_eq_true] at h ⊢
  obtain ⟨⟨h1, h2, h3, h4, h5, h6⟩, h7⟩ := h
  refine ⟨⟨h1, h2, h3, h4, ?_, h6⟩, h7⟩
  rw [bne_iff_ne, ne_eq, Option.some.injEq, decide_eq_false_iff_not, not_not] at h5 ⊢
  omega

/-- A block that passes passes later. -/
theorem judge_later {s : StateOf H Unit} {height : UInt32} {block : Block H} {now now' : UInt32}
    (hle : now ≤ now') {v : Verdict} {next : Records} {held : Unit}
    (h : s.judge height block (some now) = .ok (v, next, held)) (hok : v.ok = true) :
    ∃ v', s.judge height block (some now') = .ok (v', next, held) ∧ v'.ok = true := by
  unfold StateOf.judge at h ⊢
  dsimp only at h ⊢
  obtain ⟨structural, hstruct, h⟩ := Res.bind_eq_ok.mp h
  obtain ⟨⟨ctx, next', held'⟩, hctx, h⟩ := Res.bind_eq_ok.mp h
  cases h
  rw [hstruct, Res.ok_bind, hctx, Res.ok_bind]
  refine ⟨_, rfl, ?_⟩
  rw [Verdict.ok_append, Verdict.ok_append, Bool.and_eq_true, Bool.and_eq_true] at hok ⊢
  refine ⟨⟨validateHeader_later ?_ hok.1.1, hok.1.2⟩, hok.2⟩
  rw [UInt32.le_iff_toNat_le] at hle
  unfold Word.satAdd
  dsimp only
  omega

/-- What an applied block took: its place, its verdict, its report. -/
theorem apply_cases {s s' : StateOf H Unit} {height : UInt32} {block : Block H}
    {expect : Option BlockHash} {now : Option UInt32} {a : Applied}
    (h : s.apply height block expect now = .ok (s', .ok a)) :
    ∃ t v next held, s.tip = .ok t ∧ height.toNat = t.height + 1 ∧
      HeaderFamily.prev block.header = t.hash ∧
      s.judge height block now = .ok (v, next, held) ∧ v.ok = true ∧
      (∀ e, expect = some e → e = HeaderFamily.blockHash block.header) ∧
      s' = s.commit height.toNat block next held ∧
      a = ⟨height.toNat, HeaderFamily.blockHash block.header, block.txdata.length⟩ := by
  unfold StateOf.apply at h
  obtain ⟨t, ht, h⟩ := Res.bind_eq_ok.mp h
  by_cases h1 : height.toNat = t.height + 1
  rotate_left
  · rw [if_pos h1] at h
    cases h
  rw [if_neg (not_not.mpr h1)] at h
  by_cases h2 : HeaderFamily.prev block.header = t.hash
  rotate_left
  · rw [if_pos h2] at h
    cases h
  rw [if_neg (not_not.mpr h2)] at h
  obtain ⟨⟨v, next, held⟩, hj, h⟩ := Res.bind_eq_ok.mp h
  dsimp only at h
  split at h
  · cases h
  rename_i hok
  split at h
  · cases h
  rename_i hexpect
  cases h
  refine ⟨t, v, next, held, ht, h1, h2, hj, by simpa using hok, ?_, rfl, rfl⟩
  rintro e rfl
  simpa using hexpect

/-- **A block applied once applies again**, later, on the same chain, and is
held to its hash. -/
theorem apply_replayed {s s' t : StateOf H Unit} {height : UInt32} {block : Block H}
    {expect : Option BlockHash} {now now' : UInt32} {a : Applied}
    (h : s.apply height block expect (some now) = .ok (s', .ok a)) (hsame : SameChain s t)
    (hle : now ≤ now') :
    ∃ t', t.apply height block (some (HeaderFamily.blockHash block.header)) (some now') =
      .ok (t', .ok a) ∧ SameChain s' t' := by
  obtain ⟨tip, v, next, held, htip, hheight, hprev, hj, hok, -, rfl, rfl⟩ := apply_cases h
  obtain ⟨v', hj', hok'⟩ := judge_later hle hj hok
  have htip' : t.tip = .ok tip := by
    unfold StateOf.tip at htip ⊢
    rw [hsame.hashes, hsame.headers]
    exact htip
  refine ⟨t.commit height.toNat block next held, ?_, ?_⟩
  · unfold StateOf.apply
    refine Res.bind_eq_ok.mpr ⟨tip, htip', ?_⟩
    rw [if_neg (not_not.mpr hheight), if_neg (not_not.mpr hprev)]
    refine Res.bind_eq_ok.mpr ⟨(v', next, held), (judge_same hsame _ _ _).trans hj', ?_⟩
    dsimp only
    rw [hok']
    simp
  · unfold StateOf.commit
    refine ⟨hsame.doc, hsame.params, hsame.bits, hsame.challenge, ?_, ?_, ?_, ?_,
      hsame.extraRules⟩
    · dsimp only
      rw [hsame.headers]
    · dsimp only
      rw [hsame.hashes]
    · dsimp only
      rw [hsame.utxo]
    · dsimp only
      rw [hsame.records]

/-- A block that passed is not heavier than the limit. -/
theorem judge_weight {s : StateOf H Unit} {height : UInt32} {block : Block H}
    {now : Option UInt32} {v : Verdict} {next : Records} {held : Unit}
    (h : s.judge height block now = .ok (v, next, held)) (hok : v.ok = true) :
    blockWeight block ≤ s.params.maxBlockWeight := by
  unfold StateOf.judge at h
  dsimp only at h
  obtain ⟨structural, hstruct, h⟩ := Res.bind_eq_ok.mp h
  obtain ⟨⟨ctx, next', held'⟩, -, h⟩ := Res.bind_eq_ok.mp h
  cases h
  rw [Verdict.ok_append, Verdict.ok_append, Bool.and_eq_true, Bool.and_eq_true] at hok
  have hs := hok.1.2
  unfold validateBlockStructure at hstruct
  obtain ⟨signed, -, hstruct⟩ := Res.bind_eq_ok.mp hstruct
  cases hstruct
  simp only [Verdict.ok_append, Verdict.ok_cons, Bool.and_eq_true, bne_iff_ne, ne_eq,
    Option.some.injEq, decide_eq_false_iff_not, not_not] at hs
  exact hs.1.2.2.2.2.2.1

/-! ### What a directory names -/

/-- Blocks replayed at a time: the genesis, then each at the next height. -/
inductive Replays (doc : ChainDocument) (now : UInt32) : List (Block H) → StateOf H Unit → Prop
  | genesis {g s} :
      fromGenesisWithRules doc g (some (HeaderFamily.blockHash g.header)) [] () = .ok s →
      Replays doc now [g] s
  | block {bs s b s' a} : Replays doc now bs s →
      s.apply (UInt32.ofNat bs.length) b (some (HeaderFamily.blockHash b.header)) (some now) =
        .ok (s', .ok a) →
      Replays doc now (bs ++ [b]) s'

variable (decode : Bytes → Option (Block H))

/-- The entry of block `b` at this height, read back from the file. -/
structure Names (dat : Bytes) (height : ℕ) (e : IndexEntry) (b : Block H) : Prop where
  height : e.height.toNat = height
  hash : parseHash e.hash = HeaderFamily.blockHash b.header
  bytes : ∃ bytes, readBlock dat e = .ok bytes ∧ decode bytes = some b

/-- Entries for the first of these blocks, in order. -/
def NamesAll (dat : Bytes) (es : List IndexEntry) (bs : List (Block H)) : Prop :=
  es.length ≤ bs.length ∧
    ∀ k e b, es[k]? = some e → bs[k]? = some b → Names decode dat k e b

variable {decode}

omit [Bitcoin] in
theorem Names.append {dat : Bytes} {height : ℕ} {e : IndexEntry} {b : Block H} (more : Bytes)
    (h : Names decode dat height e b) : Names decode (dat ++ more) height e b := by
  obtain ⟨bytes, hread, hdecode⟩ := h.bytes
  exact ⟨h.height, h.hash, bytes, readBlock_append more hread, hdecode⟩

omit [Bitcoin] in
theorem NamesAll.append {dat : Bytes} {es : List IndexEntry} {bs : List (Block H)} (more : Bytes)
    (h : NamesAll decode dat es bs) : NamesAll decode (dat ++ more) es bs :=
  ⟨h.1, fun k e b he hb => (h.2 k e b he hb).append more⟩

omit [Bitcoin] in
/-- More blocks are applied than named. -/
theorem NamesAll.ahead {dat : Bytes} {es : List IndexEntry} {bs : List (Block H)}
    (h : NamesAll decode dat es bs) (more : List (Block H)) :
    NamesAll decode dat es (bs ++ more) := by
  refine ⟨?_, fun k e b he hb => ?_⟩
  · have hle := h.1
    rw [List.length_append]
    omega
  · have hk : k < bs.length := by
      have hlt := (List.getElem?_eq_some_iff.mp he).1
      have hle := h.1
      omega
    rw [List.getElem?_append_left hk] at hb
    exact h.2 k e b he hb

omit [Bitcoin] in
/-- A block named after all the others. -/
theorem NamesAll.concat {dat : Bytes} {es : List IndexEntry} {bs : List (Block H)}
    {e : IndexEntry} {b : Block H} (h : NamesAll decode dat es bs) (hlen : es.length = bs.length)
    (he : Names decode dat bs.length e b) : NamesAll decode dat (es ++ [e]) (bs ++ [b]) := by
  refine ⟨by simp [hlen], fun k e' b' he' hb' => ?_⟩
  by_cases hk : k < bs.length
  · rw [List.getElem?_append_left (by omega)] at he' hb'
    exact h.2 k e' b' he' hb'
  · have hle := (List.getElem?_eq_some_iff.mp hb').1
    rw [List.length_append, List.length_singleton] at hle
    obtain rfl : k = bs.length := by omega
    rw [List.getElem?_append_right (by omega), hlen, Nat.sub_self] at he'
    rw [List.getElem?_append_right (Nat.le_refl _), Nat.sub_self] at hb'
    cases he'
    cases hb'
    exact he

omit [Bitcoin] in
theorem NamesAll.prefix {dat : Bytes} {es es' : List IndexEntry} {bs : List (Block H)}
    (h : NamesAll decode dat es bs) (hpre : es' <+: es) : NamesAll decode dat es' bs := by
  obtain ⟨rest, rfl⟩ := hpre
  refine ⟨?_, fun k e b he hb => ?_⟩
  · have hle := h.1
    rw [List.length_append] at hle
    omega
  · have hk := (List.getElem?_eq_some_iff.mp he).1
    refine h.2 k e b ?_ hb
    rw [List.getElem?_append_left hk]
    exact he

omit [Bitcoin] in
/-- The heights named run from 0. -/
theorem NamesAll.heights {dat : Bytes} {es : List IndexEntry} {bs : List (Block H)}
    (h : NamesAll decode dat es bs) :
    es.map (fun e => e.height.toNat) = List.range es.length := by
  refine List.ext_getElem (by simp) fun k hk hk' => ?_
  rw [List.length_map] at hk
  have hle := h.1
  rw [List.getElem_map, List.getElem_range]
  exact (h.2 k _ _ (List.getElem?_eq_getElem hk) (List.getElem?_eq_getElem (by omega))).height

/-- Fewer blocks replay too. -/
theorem Replays.take {doc : ChainDocument} {now : UInt32} {bs : List (Block H)}
    {s : StateOf H Unit} (h : Replays doc now bs s) {k : ℕ} (hk : 0 < k) :
    ∃ s', Replays doc now (bs.take k) s' := by
  induction h with
  | @genesis g s hgen =>
    rw [List.take_of_length_le (by simp; omega)]
    exact ⟨s, .genesis hgen⟩
  | @block bs s b s' a hbs happly ih =>
    by_cases hle : k ≤ bs.length
    · rw [List.take_append_of_le_length hle]
      exact ih
    · rw [List.take_of_length_le (by simp; omega)]
      exact ⟨s', .block hbs happly⟩

theorem Replays.ne_nil {doc : ChainDocument} {now : UInt32} {bs : List (Block H)}
    {s : StateOf H Unit} (h : Replays doc now bs s) : bs ≠ [] := by
  cases h <;> simp

open ChainFile in
/-- **An index that names blocks that replay, replays to them.** -/
theorem Replays.replay {doc : ChainDocument} {now : UInt32} {dat : Bytes} {bs : List (Block H)}
    {s : StateOf H Unit} (h : Replays doc now bs s) : ∀ index : Index,
    index.blocks.length = bs.length → NamesAll decode dat index.blocks bs →
    replay decode doc dat index now = .ok s := by
  induction h with
  | @genesis g s hgen =>
    intro index hlen hnames
    obtain ⟨first, hfirst⟩ := List.length_eq_one_iff.mp hlen
    rw [hfirst] at hnames
    have hname := hnames.2 0 first g rfl rfl
    obtain ⟨bytes, hread, hdecode⟩ := hname.bytes
    have hzero : (first.height != 0) = false := by
      rw [bne_eq_false_iff_eq]
      exact UInt32.toNat_inj.mp hname.height
    unfold ChainFile.replay
    rw [hfirst]
    dsimp only
    rw [hzero, Res.refuseIf_false, Res.ok_bind, hread, Res.ok_bind, hdecode, Res.okOr_some,
      Res.ok_bind, hname.hash, hgen]
    rfl
  | @block bs s b s' a hbs happly ih =>
    intro index hlen hnames
    rw [List.length_append, List.length_singleton] at hlen
    obtain ⟨es, e, hes⟩ : ∃ es e, index.blocks = es ++ [e] := by
      rcases List.eq_nil_or_concat index.blocks with hnil | ⟨es, e, hes⟩
      · rw [hnil] at hlen
        cases hlen
      · exact ⟨es, e, by simpa using hes⟩
    rw [hes] at hlen hnames
    rw [List.length_append, List.length_singleton, Nat.add_right_cancel_iff] at hlen
    have hbefore : NamesAll decode dat es bs := by
      refine ⟨hlen.le, fun k e' b' he' hb' => hnames.2 k e' b' ?_ ?_⟩
      · rw [List.getElem?_append_left (List.getElem?_eq_some_iff.mp he').1]
        exact he'
      · rw [List.getElem?_append_left (List.getElem?_eq_some_iff.mp hb').1]
        exact hb'
    have hname : Names decode dat bs.length e b := by
      refine hnames.2 bs.length e b ?_ ?_
      · rw [List.getElem?_append_right (by omega), hlen, Nat.sub_self]
        rfl
      · rw [List.getElem?_append_right (Nat.le_refl _), Nat.sub_self]
        rfl
    have hrest := ih { index with blocks := es } hlen hbefore
    obtain ⟨bytes, hread, hdecode⟩ := hname.bytes
    have hheight : e.height = UInt32.ofNat bs.length := by
      rw [← hname.height, UInt32.ofNat_toNat]
    have hentry : replayEntry decode dat now s e = .ok s' := by
      unfold replayEntry
      rw [hread, Res.ok_bind, hdecode, Res.okOr_some, Res.ok_bind, hname.hash, hheight, happly]
    unfold ChainFile.replay at hrest ⊢
    cases es with
    | nil => cases hrest
    | cons first rest =>
      rw [hes]
      dsimp only [List.cons_append] at hrest ⊢
      obtain ⟨_, hzero, hrest⟩ := Res.bind_eq_ok.mp hrest
      obtain ⟨bytes₀, hread₀, hrest⟩ := Res.bind_eq_ok.mp hrest
      obtain ⟨genesis, hdecode₀, hrest⟩ := Res.bind_eq_ok.mp hrest
      refine Res.bind_eq_ok.mpr ⟨(), hzero, Res.bind_eq_ok.mpr ⟨bytes₀, hread₀,
        Res.bind_eq_ok.mpr ⟨genesis, hdecode₀, ?_⟩⟩⟩
      split at hrest
      · rename_i s₀ hgen
        rw [Res.foldlM_append, hrest, Res.ok_bind, Res.foldlM_cons, hentry]
        rfl
      · cases hrest
      · cases hrest

/-- A chain in memory that its directory replays to: what is on disk is the
first part of what is indexed, and that of what is applied. -/
structure OnDisk (decode : Bytes → Option (Block H)) (doc : ChainDocument) (c : ChainFile H)
    (blocks : List (Block H)) (since : UInt32) : Prop where
  chain : Chain doc [] () blocks c.state
  replays : ∀ now, since ≤ now → ∃ s, Replays doc now blocks s ∧ SameChain c.state s
  named : NamesAll decode c.dat c.index.blocks blocks
  onDisk : ∃ index, c.idx = .whole index ∧ index.blocks <+: c.index.blocks ∧ index.blocks ≠ []

open ChainFile in
/-- Such a directory opens, with the first of the blocks. -/
theorem OnDisk.open {doc : ChainDocument} {c : ChainFile H} {blocks : List (Block H)}
    {since : UInt32} (h : OnDisk decode doc c blocks since) :
    ∃ index, c.idx = .whole index ∧
      index.blocks.map (fun e => e.height.toNat) = List.range index.blocks.length ∧
      ∀ makeGenesis now, since ≤ now → ∃ c' bs, «open» decode doc makeGenesis c.dat c.idx now = .ok c' ∧
        bs <+: blocks ∧ Replays doc now bs c'.state := by
  obtain ⟨index, hidx, hpre, hne⟩ := h.onDisk
  have hnames := h.named.prefix hpre
  refine ⟨index, hidx, hnames.heights, fun makeGenesis now hnow => ?_⟩
  obtain ⟨s, hs, -⟩ := h.replays now hnow
  obtain ⟨s', hs'⟩ := hs.take (List.length_pos_iff.mpr hne)
  have hlen : index.blocks.length = (blocks.take index.blocks.length).length := by
    have hle := hnames.1
    rw [List.length_take]
    omega
  have htake : NamesAll decode c.dat index.blocks (blocks.take index.blocks.length) :=
    ⟨hlen.le, fun k e b he hb => hnames.2 k e b he (by
      rw [List.getElem?_take] at hb
      split at hb
      · exact hb
      · cases hb)⟩
  have hreplay := hs'.replay index hlen htake
  refine ⟨⟨s', index, c.dat, c.idx⟩, _, ?_, List.take_prefix _ _, hs'⟩
  unfold ChainFile.open
  rw [hidx]
  unfold readIndex
  rw [Res.ok_bind]
  dsimp only
  rw [hreplay, Res.ok_bind]

/-! ### Writing -/

omit [Bitcoin] [HeaderFamily H] in
/-- What a write leaves: the block unnamed after a part of its record, or named. -/
theorem write_cases {a : Append} {w : IndexWrite} {height : UInt32} {hash : BlockHash}
    {bytes : Bytes} {c c' : ChainFile H} {r : Res DiskError Unit}
    (h : ChainFile.write a w height hash bytes c = (c', r)) :
    c'.state = c.state ∧
      ((∃ more, c'.dat = c.dat ++ more ∧ c'.index = c.index ∧ c'.idx = c.idx) ∨
        (a = .whole ∧ (c.dat ++ blockRecord height bytes).length < 2 ^ 64 ∧
          c'.dat = c.dat ++ blockRecord height bytes ∧
          c'.index.blocks = c.index.blocks ++ [indexEntry c.dat.length height (hashText hash) bytes] ∧
          (c'.idx = .whole c'.index ∨ c'.idx = c.idx ∨ w = .cut))) := by
  unfold ChainFile.write appendBlock at h
  cases a with
  | part n =>
    cases h
    exact ⟨rfl, .inl ⟨_, rfl, rfl, rfl⟩⟩
  | whole =>
    dsimp only at h
    by_cases hbig : 2 ^ 64 ≤ (c.dat ++ blockRecord height bytes).length
    · rw [if_pos hbig] at h
      cases h
      exact ⟨rfl, .inl ⟨[], (List.append_nil _).symm, rfl, rfl⟩⟩
    · rw [if_neg hbig] at h
      rw [Nat.not_le] at hbig
      cases w with
      | whole =>
        cases h
        exact ⟨rfl, .inr ⟨rfl, hbig, rfl, rfl, .inl rfl⟩⟩
      | kept =>
        cases h
        exact ⟨rfl, .inr ⟨rfl, hbig, rfl, rfl, .inr (.inl rfl)⟩⟩
      | cut =>
        cases h
        exact ⟨rfl, .inr ⟨rfl, hbig, rfl, rfl, .inr (.inr rfl)⟩⟩

/-- No block is appended after one that was not, and no index is cut short. -/
def Unbroken (c : ChainFile H) (a : Append) (w : IndexWrite) : Prop :=
  (c.index.blocks.length < c.state.hashes.length → a ≠ .whole) ∧ w ≠ .cut

/-- **A block applied and written** keeps the directory, when it is not written
after one that was not. -/
theorem OnDisk.write {doc : ChainDocument} {c c' : ChainFile H} {blocks : List (Block H)}
    {since now : UInt32} {s₁ s' : StateOf H Unit} {height : UInt32} {block : Block H}
    {expect : Option BlockHash} {applied : Applied} {bytes : Bytes} {a : Append} {w : IndexWrite}
    {r : Res DiskError Unit} (h : OnDisk decode doc c blocks since) (hnow : since ≤ now)
    (hquiet : Quiet c.state s₁)
    (happly : s₁.apply height block expect (some now) = .ok (s', .ok applied))
    (hdecode : decode bytes = some block)
    (hshort : bytes.length ≤ blockWeight block) (hok : Unbroken c a w)
    (hwrite : ChainFile.write a w (UInt32.ofNat applied.height) applied.hash bytes
      { c with state := s' } = (c', r)) :
    OnDisk decode doc c' (blocks ++ [block]) now := by
  have hchain₁ : Chain doc [] () blocks s₁ := by
    have := Steps.chain hquiet h.chain
    rwa [List.append_nil] at this
  have hsame := hquiet.sameChain
  have hchain' : Chain doc [] () (blocks ++ [block]) s' := .step hchain₁ (.applied happly)
  obtain ⟨t, v, next, held, ht, hheight, -, hj, hverdict, -, -, rfl⟩ := apply_cases happly
  have htip := hchain₁.onChain.tip_height ht
  have hlen : height.toNat = blocks.length := by omega
  have hofNat : UInt32.ofNat height.toNat = height := UInt32.ofNat_toNat
  obtain ⟨hstate, hfiles⟩ := write_cases hwrite
  have hreplays : ∀ later, now ≤ later →
      ∃ s, Replays doc later (blocks ++ [block]) s ∧ SameChain s' s := by
    intro later hlater
    obtain ⟨s, hs, hss⟩ := h.replays later (UInt32.le_trans hnow hlater)
    obtain ⟨s'', happly', hss'⟩ := apply_replayed happly (hsame.symm.trans hss) hlater
    rw [← hofNat, hlen] at happly'
    exact ⟨s'', .block hs happly', hss'⟩
  dsimp only at hstate hfiles
  refine ⟨hstate ▸ hchain', hstate ▸ hreplays, ?_, ?_⟩
  · rcases hfiles with ⟨more, hdat, hindex, -⟩ | ⟨rfl, hbig, hdat, hindex, -⟩
    · rw [hdat, hindex]
      exact (h.named.append more).ahead [block]
    · have hnotBehind : ¬ c.index.blocks.length < c.state.hashes.length := fun hlt => hok.1 hlt rfl
      have hhashes : c.state.hashes.length = blocks.length := by
        rw [h.chain.onChain.hashes, List.length_map]
      have hweight := judge_weight hj hverdict
      rw [hchain₁.onChain.params] at hweight
      have hsize : bytes.length < 2 ^ 32 := by
        have hmax : ({} : Params).maxBlockWeight = 4000000 := rfl
        omega
      rw [hdat, hindex]
      rw [hofNat] at hbig ⊢
      refine (h.named.append _).concat (by have := h.named.1; omega) ⟨hlen, ?_, bytes, ?_, hdecode⟩
      · exact parseHash_hashText _
      · exact readBlock_appended _ hsize hbig
  · obtain ⟨index, hidx, hpre, hne⟩ := h.onDisk
    rcases hfiles with ⟨more, -, hindex, hkept⟩ | ⟨-, -, -, hindex, hkept⟩
    · exact ⟨index, hkept.trans hidx, hindex ▸ hpre, hne⟩
    · rcases hkept with hkept | hkept | hcut
      · exact ⟨c'.index, hkept, List.prefix_refl _, by rw [hindex]; simp⟩
      · refine ⟨index, hkept.trans hidx, ?_, hne⟩
        rw [hindex]
        exact hpre.trans (List.prefix_append _ _)
      · exact absurd hcut hok.2

/-! ### A run -/

/-- The blocks an index names, as they decode. -/
def namedBlocks (decode : Bytes → Option (Block H)) (dat : Bytes) (index : Index) : List (Block H) :=
  index.blocks.filterMap fun e =>
    match readBlock dat e with
    | .ok bytes => decode bytes
    | _ => none

/-- The block a call added in memory, written or not. -/
def addedBy (decode : Bytes → Option (Block H)) (bytes : Bytes) (expect : Option BlockHash)
    (now : UInt32) (c : ChainFile H) : List (Block H) :=
  match decode bytes with
  | some block => appliedBy block (StateOf.adding block expect (some now) c.state).2
  | none => []

open ChainFile in
/-- A run of a chain's directory: opened, then added to and produced on, at
times that do not go back, each call's writes ending as they may if `ok`. The
labels are the blocks applied in memory and the time of the last call. -/
inductive FileRun (ok : ChainFile H → Append → IndexWrite → Prop)
    (decode : Bytes → Option (Block H)) (doc : ChainDocument) :
    List (Block H) → UInt32 → ChainFile H → Prop
  | created {genesis dat now c} :
      «open» decode doc (.ok genesis) dat .absent now = .ok c → FileRun ok decode doc [genesis] now c
  | opened {makeGenesis dat index now c} :
      «open» decode doc makeGenesis dat (.whole index) now = .ok c →
      FileRun ok decode doc (namedBlocks decode dat index) now c
  | submitted {blocks since c tx s r} : FileRun ok decode doc blocks since c →
      c.state.submit tx = .ok (s, r) → FileRun ok decode doc blocks since { c with state := s }
  | added {blocks since c bytes expect now a w} : FileRun ok decode doc blocks since c →
      since ≤ now → ok c a w →
      FileRun ok decode doc (blocks ++ addedBy decode bytes expect now c) now
        (addBlock decode bytes expect now a w c).1
  | produced {blocks since c key claims now a w} : FileRun ok decode doc blocks since c →
      since ≤ now → ok c a w →
      FileRun ok decode doc
        (blocks ++ producedBy (StateOf.produce key { time := now, claims } (some now) c.state).2) now
        (produce key claims now a w c).1

/-- The steps of a call without a block change nothing on disk. -/
theorem OnDisk.quiet {doc : ChainDocument} {c : ChainFile H} {blocks : List (Block H)}
    {since now : UInt32} {s : StateOf H Unit} (h : OnDisk decode doc c blocks since)
    (hnow : since ≤ now) (hquiet : Quiet c.state s) :
    OnDisk decode doc { c with state := s } blocks now := by
  refine ⟨?_, fun later hlater => ?_, h.named, h.onDisk⟩
  · have := Steps.chain hquiet h.chain
    rwa [List.append_nil] at this
  · obtain ⟨t, ht, hsame⟩ := h.replays later (UInt32.le_trans hnow hlater)
    exact ⟨t, ht, hquiet.sameChain.symm.trans hsame⟩

omit [Bitcoin] [HeaderFamily H] in
theorem onState_bind {α β : Type} (x : Method Error (StateOf H Unit) α)
    (f : α → Method DiskError (ChainFile H) β) (c : ChainFile H) :
    (ChainFile.onState x >>= f) c = match x c.state with
      | (s, .ok a) => f a { c with state := s }
      | (s, .err err) => ({ c with state := s }, .err (.core err))
      | (s, .panic) => ({ c with state := s }, .panic) := by
  change Method.bind (ChainFile.onState x) f c = _
  unfold Method.bind ChainFile.onState
  rcases x c.state with ⟨s, a | e | _⟩ <;> rfl

open ChainFile Method in
theorem OnDisk.added {doc : ChainDocument} {c : ChainFile H} {blocks : List (Block H)}
    {since now : UInt32} {bytes : Bytes} {expect : Option BlockHash} {a : Append} {w : IndexWrite}
    (h : OnDisk decode doc c blocks since) (hnow : since ≤ now) (hok : Unbroken c a w)
    (hshort : ∀ b ∈ addedBy decode bytes expect now c, decode bytes = some b →
      bytes.length ≤ blockWeight b) :
    OnDisk decode doc (addBlock decode bytes expect now a w c).1
      (blocks ++ addedBy decode bytes expect now c) now := by
  have hkept : OnDisk decode doc c blocks now := by
    have hq := h.quiet (s := c.state) hnow (.refl _)
    exact hq
  cases hdecode : decode bytes with
  | none =>
    have hcall : (addBlock decode bytes expect now a w c).1 = c := by
      unfold ChainFile.addBlock
      rw [hdecode]
      rfl
    have hnone : addedBy decode bytes expect now c = [] := by
      unfold addedBy
      rw [hdecode]
    rw [hcall, hnone, List.append_nil]
    exact hkept
  | some block =>
    have hadded : addedBy decode bytes expect now c =
        appliedBy block (StateOf.adding block expect (some now) c.state).2 := by
      unfold addedBy
      rw [hdecode]
    rw [hadded] at hshort ⊢
    rcases hadd : StateOf.adding block expect (some now) c.state with ⟨s', r⟩
    have hsteps := adding_steps hadd
    rw [hadd] at hshort
    unfold ChainFile.addBlock
    rw [hdecode, Res.okOr_some, ofRes_ok_bind, onState_bind, hadd]
    cases r with
    | ok p =>
      dsimp only
      rcases hw : ChainFile.write a w (UInt32.ofNat p.height) p.hash bytes
        { c with state := s' } with ⟨c', r⟩
      have hbind := bind_fst (f := fun _ => (pure p : Method DiskError (ChainFile H) Applied)) hw
        fun _ _ => rfl
      rw [hbind]
      obtain ⟨height, happly⟩ := adding_ok hadd
      exact h.write hnow (.refl _) happly hdecode (hshort block List.mem_cons_self hdecode) hok hw
    | err e =>
      dsimp only
      rw [show appliedBy block (Res.err e) = [] from rfl, List.append_nil]
      exact h.quiet hnow hsteps
    | panic =>
      dsimp only
      rw [show appliedBy block Res.panic = [] from rfl, List.append_nil]
      exact h.quiet hnow hsteps

open ChainFile Method in
theorem OnDisk.produced {doc : ChainDocument} {c : ChainFile H} {blocks : List (Block H)}
    {since now : UInt32} {key : SecretKey} {claims : List ClaimRequest} {a : Append}
    {w : IndexWrite} (h : OnDisk decode doc c blocks since) (hnow : since ≤ now)
    (hok : Unbroken c a w)
    (hcodec : ∀ b ∈ producedBy (StateOf.produce key { time := now, claims } (some now) c.state).2,
      decode b.encode = some b ∧ b.encode.length ≤ blockWeight b) :
    OnDisk decode doc (produce key claims now a w c).1
      (blocks ++ producedBy (StateOf.produce key { time := now, claims } (some now) c.state).2)
      now := by
  rcases hmade : StateOf.produce key { time := now, claims } (some now) c.state with ⟨s', r⟩
  rw [hmade] at hcodec
  unfold ChainFile.produce
  rw [onState_bind, hmade]
  rcases produce_cases hmade with ⟨hquiet, hr⟩ | ⟨p, s₁, rfl, hquiet, hadd⟩
  · rw [producedBy_stopped hr, List.append_nil]
    cases r with
    | ok p => exact absurd rfl (hr p)
    | err e => exact h.quiet hnow hquiet
    | panic => exact h.quiet hnow hquiet
  · dsimp only
    rcases hw : ChainFile.write a w (UInt32.ofNat p.applied.height) p.applied.hash p.block.encode
      { c with state := s' } with ⟨c', r⟩
    have hbind := bind_fst (f := fun _ => (pure p.applied : Method DiskError (ChainFile H) Applied))
      hw fun _ _ => rfl
    rw [hbind]
    obtain ⟨height, happly⟩ := adding_ok hadd
    obtain ⟨hdecode, hshort⟩ := hcodec p.block List.mem_cons_self
    exact h.write hnow hquiet happly hdecode hshort hok hw

/-! ### Opened -/

/-- A genesis that passed passes when held to its hash, and is not heavy. -/
theorem fromGenesis_again {doc : ChainDocument} {g : Block H} {expect : Option BlockHash}
    {s : StateOf H Unit} (h : fromGenesisWithRules doc g expect [] () = .ok s) :
    fromGenesisWithRules doc g (some (HeaderFamily.blockHash g.header)) [] () = .ok s ∧
      (∀ e, expect = some e → e = HeaderFamily.blockHash g.header) ∧ blockWeight g ≤ 4000000 := by
  unfold fromGenesisWithRules at h ⊢
  obtain ⟨s0, h0, h⟩ := Res.bind_eq_ok.mp h
  obtain ⟨_, hempty, h⟩ := Res.bind_eq_ok.mp h
  obtain ⟨⟨v, next, held⟩, hj, h⟩ := Res.bind_eq_ok.mp h
  obtain ⟨isGenesis, hgenesis, h⟩ := Res.bind_eq_ok.mp h
  obtain ⟨_, hok, h⟩ := Res.bind_eq_ok.mp h
  obtain ⟨_, hexpect, h⟩ := Res.bind_eq_ok.mp h
  rw [Res.refuseIf_eq_ok] at hok hexpect
  refine ⟨?_, ?_, ?_⟩
  · rw [h0, Res.ok_bind, hempty, Res.ok_bind, hj, Res.ok_bind]
    dsimp only at h ⊢
    rw [hgenesis, Res.ok_bind, hok, Res.refuseIf_false, Res.ok_bind, Option.any_some, bne_self_eq_false,
      Res.refuseIf_false, Res.ok_bind]
    exact h
  · rintro e rfl
    simpa using hexpect
  · have hverdict : v.ok = true := by
      rw [Bool.not_eq_false', Verdict.ok_append, Bool.and_eq_true] at hok
      exact hok.1
    have hweight := judge_weight hj hverdict
    obtain ⟨bits, challenge, federation, -, rfl⟩ := empty_ok h0
    exact hweight

/-- A genesis on disk. -/
theorem OnDisk.created {doc : ChainDocument} {genesis : Block H} {dat : Bytes} {now : UInt32}
    {c : ChainFile H} (h : ChainFile.open decode doc (.ok genesis) dat .absent now = .ok c)
    (hdecode : decode genesis.encode = some genesis)
    (hshort : genesis.encode.length ≤ blockWeight genesis) :
    OnDisk decode doc c [genesis] now := by
  unfold ChainFile.open readIndex at h
  rw [Res.ok_bind] at h
  dsimp only at h
  cases hgen : fromGenesisWithRules doc genesis none [] () with
  | ok state =>
    rw [hgen] at h
    obtain ⟨hagain, -, hweight⟩ := fromGenesis_again hgen
    unfold appendBlock at h
    dsimp only at h
    split at h
    · rename_i happend
      split at happend
      · cases happend
      rename_i hbig
      cases happend
      cases h
      rw [Nat.not_le] at hbig
      refine ⟨.genesis hgen, fun later _ => ⟨state, .genesis hagain, .refl _⟩, ?_,
        _, rfl, List.prefix_refl _, by simp⟩
      refine ⟨Nat.le_refl _, fun k e b he hb => ?_⟩
      have hk := (List.getElem?_eq_some_iff.mp hb).1
      rw [List.length_singleton, Nat.lt_one_iff] at hk
      subst hk
      cases hb
      cases he
      exact ⟨rfl, parseHash_hashText _, _, readBlock_appended _ (by omega) hbig, hdecode⟩
    · cases h
    · cases h
  | err e =>
    rw [hgen] at h
    cases h
  | panic =>
    rw [hgen] at h
    cases h

/-- What a replay has read so far. -/
structure Read (decode : Bytes → Option (Block H)) (doc : ChainDocument) (dat : Bytes)
    (now : UInt32) (es : List IndexEntry) (bs : List (Block H)) (s : StateOf H Unit) : Prop where
  chain : Chain doc [] () bs s
  length : es.length = bs.length
  named : NamesAll decode dat es bs
  replays : ∀ later, now ≤ later → ∃ t, Replays doc later bs t ∧ SameChain s t

open ChainFile in
theorem Read.entry {doc : ChainDocument} {dat : Bytes} {now : UInt32} {es : List IndexEntry}
    {bs : List (Block H)} {s s' : StateOf H Unit} {e : IndexEntry}
    (h : Read decode doc dat now es bs s) (hentry : replayEntry decode dat now s e = .ok s') :
    ∃ b, Read decode doc dat now (es ++ [e]) (bs ++ [b]) s' := by
  unfold replayEntry at hentry
  obtain ⟨bytes, hread, hentry⟩ := Res.bind_eq_ok.mp hentry
  obtain ⟨block, hdecode, hentry⟩ := Res.bind_eq_ok.mp hentry
  rw [Res.okOr_eq_ok] at hdecode
  split at hentry
  · rename_i s₁ a happly
    cases hentry
    obtain ⟨t, v, next, held, ht, hheight, -, -, -, hexpect, -, -⟩ := apply_cases happly
    have htip := h.chain.onChain.tip_height ht
    have hlen : e.height.toNat = bs.length := by omega
    refine ⟨block, .step h.chain (.applied happly), by simp [h.length], ?_, fun later hlater => ?_⟩
    · exact h.named.concat h.length ⟨hlen, hexpect _ rfl, bytes, hread, hdecode⟩
    · obtain ⟨t, hreplays, hsame⟩ := h.replays later hlater
      obtain ⟨t', happly', hsame'⟩ := apply_replayed happly hsame hlater
      have hofNat : UInt32.ofNat e.height.toNat = e.height := UInt32.ofNat_toNat
      rw [← hofNat, hlen] at happly'
      exact ⟨t', .block hreplays happly', hsame'⟩
  · cases hentry
  · cases hentry
  · cases hentry

open ChainFile in
theorem Read.entries {doc : ChainDocument} {dat : Bytes} {now : UInt32} :
    ∀ (rest : List IndexEntry) {es : List IndexEntry} {bs : List (Block H)}
      {s s' : StateOf H Unit}, Read decode doc dat now es bs s →
      Res.foldlM (replayEntry decode dat now) s rest = .ok s' →
      ∃ more, Read decode doc dat now (es ++ rest) (bs ++ more) s'
  | [], es, bs, s, s', h, hfold => by
    cases hfold
    refine ⟨[], ?_⟩
    rw [List.append_nil, List.append_nil]
    exact h
  | e :: rest, es, bs, s, s', h, hfold => by
    rw [Res.foldlM_cons] at hfold
    obtain ⟨s₁, hentry, hfold⟩ := Res.bind_eq_ok.mp hfold
    obtain ⟨b, hb⟩ := h.entry hentry
    obtain ⟨more, hmore⟩ := Read.entries rest hb hfold
    refine ⟨b :: more, ?_⟩
    rw [List.append_assoc, List.append_assoc] at hmore
    exact hmore

omit [Bitcoin] in
/-- Entries that name blocks decode to them. -/
theorem NamesAll.namedBlocks_eq {dat : Bytes} : ∀ {es : List IndexEntry} {bs : List (Block H)}
    {k : ℕ}, es.length = bs.length →
    (∀ i e b, es[i]? = some e → bs[i]? = some b → Names decode dat (k + i) e b) →
    (es.filterMap fun e => match readBlock dat e with
      | .ok bytes => decode bytes
      | _ => none) = bs
  | [], [], _, _, _ => rfl
  | e :: es, b :: bs, k, hlen, h => by
    obtain ⟨bytes, hread, hdecode⟩ := (h 0 e b rfl rfl).bytes
    have hrest : ∀ i e' b', es[i]? = some e' → bs[i]? = some b' →
        Names decode dat (k + 1 + i) e' b' := by
      intro i e' b' he hb
      have hname := h (i + 1) e' b' he hb
      rw [← Nat.add_assoc, Nat.add_right_comm] at hname
      exact hname
    have ih := NamesAll.namedBlocks_eq (Nat.succ_inj.mp hlen) hrest
    rw [List.filterMap_cons, hread]
    dsimp only
    rw [hdecode]
    dsimp only
    rw [ih]

/-- A directory opened. -/
theorem OnDisk.opened {doc : ChainDocument} {makeGenesis : Res Error (Block H)} {dat : Bytes}
    {index : Index} {now : UInt32} {c : ChainFile H}
    (h : ChainFile.open decode doc makeGenesis dat (.whole index) now = .ok c) :
    OnDisk decode doc c (namedBlocks decode dat index) now := by
  unfold ChainFile.open readIndex at h
  rw [Res.ok_bind] at h
  dsimp only at h
  obtain ⟨state, hreplay, h⟩ := Res.bind_eq_ok.mp h
  cases h
  unfold ChainFile.replay at hreplay
  split at hreplay
  · cases hreplay
  rename_i first rest hblocks
  obtain ⟨_, hzero, hreplay⟩ := Res.bind_eq_ok.mp hreplay
  obtain ⟨bytes, hread, hreplay⟩ := Res.bind_eq_ok.mp hreplay
  obtain ⟨genesis, hdecode, hreplay⟩ := Res.bind_eq_ok.mp hreplay
  rw [Res.refuseIf_eq_ok, bne_eq_false_iff_eq] at hzero
  rw [Res.okOr_eq_ok] at hdecode
  split at hreplay
  · rename_i s₀ hgen
    obtain ⟨hagain, hexpect, -⟩ := fromGenesis_again hgen
    have hfirst : Read decode doc dat now [first] [genesis] s₀ := by
      refine ⟨.genesis hgen, rfl, ⟨Nat.le_refl _, fun k e b he hb => ?_⟩, fun later _ =>
        ⟨s₀, .genesis hagain, .refl _⟩⟩
      have hk := (List.getElem?_eq_some_iff.mp hb).1
      rw [List.length_singleton, Nat.lt_one_iff] at hk
      subst hk
      cases hb
      cases he
      exact ⟨by rw [hzero]; rfl, hexpect _ rfl, bytes, hread, hdecode⟩
    obtain ⟨more, hmore⟩ := Read.entries rest hfirst hreplay
    rw [List.singleton_append, ← hblocks] at hmore
    have hlabel : namedBlocks decode dat index = [genesis] ++ more :=
      NamesAll.namedBlocks_eq (k := 0) hmore.length fun i e b he hb => by
        rw [Nat.zero_add]
        exact hmore.named.2 i e b he hb
    rw [hlabel]
    exact ⟨hmore.chain, hmore.replays, hmore.named, index, rfl, List.prefix_refl _,
      by rw [hblocks]; simp⟩
  · cases hreplay
  · cases hreplay

/-- What reads a block back: its own bytes do, and no longer ones than its weight. -/
structure ReadsBack (decode : Bytes → Option (Block H)) (b : Block H) : Prop where
  decode_encode : decode b.encode = some b
  length_le : ∀ bytes, decode bytes = some b → bytes.length ≤ blockWeight b

/-- **A directory replays to a first part of what was applied**, after a run in
which no block is appended after one that was not and no index is cut short. -/
theorem directory_replays {doc : ChainDocument} {blocks : List (Block H)} {since : UInt32}
    {c : ChainFile H} (hrun : FileRun Unbroken decode doc blocks since c)
    (hcodec : ∀ b ∈ blocks, ReadsBack decode b) :
    ∃ index, c.idx = .whole index ∧
      index.blocks.map (fun e => e.height.toNat) = List.range index.blocks.length ∧
      ∀ makeGenesis now, since ≤ now → ∃ c' bs,
        ChainFile.open decode doc makeGenesis c.dat c.idx now = .ok c' ∧
        bs <+: blocks ∧ Replays doc now bs c'.state := by
  have hdisk : OnDisk decode doc c blocks since := by
    induction hrun with
    | @created genesis dat now c hopen =>
      have hb := hcodec genesis List.mem_cons_self
      exact OnDisk.created hopen hb.decode_encode (hb.length_le _ hb.decode_encode)
    | opened hopen => exact OnDisk.opened hopen
    | submitted _ hsubmit ih =>
      exact (ih hcodec).quiet (UInt32.le_refl _) (Step.submitted hsubmit).steps
    | added _ hnow hok ih =>
      have hold := ih fun b hb => hcodec b (List.mem_append_left _ hb)
      exact hold.added hnow hok fun b hb hdecode =>
        (hcodec b (List.mem_append_right _ hb)).length_le _ hdecode
    | produced _ hnow hok ih =>
      have hold := ih fun b hb => hcodec b (List.mem_append_left _ hb)
      refine hold.produced hnow hok fun b hb => ?_
      have hread := hcodec b (List.mem_append_right _ hb)
      exact ⟨hread.decode_encode, hread.length_le _ hread.decode_encode⟩
  exact hdisk.open

end

section

attribute [local instance] sampleBitcoin

/-! ### Runs on a directory -/

instance (c : ChainFile Header) (a : Append) (w : IndexWrite) : Decidable (Unbroken c a w) :=
  inferInstanceAs (Decidable (_ ∧ _))

/-- When the sample's calls are made. -/
def sampleNow : UInt32 := 1790001000

/-- Blocks produced in order, each call's writes ending so, and `q` met before each. -/
def produceAll (q : ChainFile Header → Append → IndexWrite → Bool) :
    List (Append × IndexWrite) → List (Block Header) → ChainFile Header →
    Option (List (Block Header) × ChainFile Header)
  | [], blocks, c => some (blocks, c)
  | (a, w) :: rest, blocks, c =>
    if q c a w then
      produceAll q rest
        (blocks ++ producedBy (StateOf.produce 1 { time := sampleNow, claims := [] } (some sampleNow)
          c.state).2)
        (ChainFile.produce 1 [] sampleNow a w c).1
    else none

def sampleGenesis : Res Error (Block Header) := do
  let unsigned ← buildGenesisFor sampleDoc
  let challenge ← sampleDoc.challengeScript
  signBlock unsigned challenge 1

/-- The sample's directory made, and blocks produced in it. -/
def sampleFiles (q : ChainFile Header → Append → IndexWrite → Bool)
    (calls : List (Append × IndexWrite)) : Option (List (Block Header) × ChainFile Header) :=
  match sampleGenesis with
  | .ok genesis =>
    match ChainFile.open (fun _ => none) sampleDoc (.ok genesis) [] .absent sampleNow with
    | .ok c => produceAll q calls [genesis] c
    | _ => none
  | _ => none

variable {q : ChainFile Header → Append → IndexWrite → Bool}
  {ok : ChainFile Header → Append → IndexWrite → Prop} {decode : Bytes → Option (Block Header)}

theorem fileRun_of_produceAll (hq : ∀ c a w, q c a w = true → ok c a w) :
    ∀ {calls : List (Append × IndexWrite)} {pre blocks : List (Block Header)}
      {c c' : ChainFile Header}, FileRun ok decode sampleDoc pre sampleNow c →
      produceAll q calls pre c = some (blocks, c') →
      FileRun ok decode sampleDoc blocks sampleNow c'
  | [], pre, blocks, c, c', hrun, h => by
    cases h
    exact hrun
  | (a, w) :: rest, pre, blocks, c, c', hrun, h => by
    unfold produceAll at h
    split at h
    · rename_i hmet
      exact fileRun_of_produceAll hq (.produced hrun (UInt32.le_refl _) (hq c a w hmet)) h
    · cases h

theorem fileRun_of_sample (hq : ∀ c a w, q c a w = true → ok c a w)
    {calls : List (Append × IndexWrite)} {blocks : List (Block Header)} {c : ChainFile Header}
    (h : sampleFiles q calls = some (blocks, c)) :
    FileRun ok decode sampleDoc blocks sampleNow c := by
  unfold sampleFiles at h
  split at h
  · rename_i genesis _
    split at h
    · rename_i c₀ hopen
      have hstart : FileRun ok decode sampleDoc [genesis] sampleNow c₀ := .created hopen
      exact fileRun_of_produceAll hq hstart h
    · cases h
  · cases h

/-- Blocks found by their bytes. -/
def decodeIn (blocks : List (Block Header)) (bytes : Bytes) : Option (Block Header) :=
  blocks.find? fun b => b.encode == bytes

theorem readsBack_decodeIn {blocks : List (Block Header)}
    (hapart : (blocks.map Block.encode).Nodup)
    (hshort : ∀ b ∈ blocks, b.encode.length ≤ blockWeight b) :
    ∀ b ∈ blocks, ReadsBack (decodeIn blocks) b := by
  intro b hb
  refine ⟨?_, fun bytes hbytes => ?_⟩
  · unfold decodeIn
    have hfound : (blocks.find? fun b' => b'.encode == b.encode).isSome = true :=
      List.find?_isSome.mpr ⟨b, hb, beq_self_eq_true b.encode⟩
    obtain ⟨b', hb'⟩ := Option.isSome_iff_exists.mp hfound
    have hsame := List.find?_some hb'
    rw [beq_iff_eq] at hsame
    rw [hb', List.inj_on_of_nodup_map hapart (List.mem_of_find?_eq_some hb') hb hsame]
  · unfold decodeIn at hbytes
    have hsame := List.find?_some hbytes
    rw [beq_iff_eq] at hsame
    rw [← hsame]
    exact hshort b hb

/-- The first index write fails and keeps the old text; the last append fails part way. -/
def keptCalls : List (Append × IndexWrite) := [(.whole, .kept), (.whole, .whole), (.part 5, .whole)]

/-- The first append fails, and the second does not. -/
def brokenCalls : List (Append × IndexWrite) := [(.part 0, .whole), (.whole, .whole)]

set_option maxRecDepth 100000 in
theorem keptCalls_run : (sampleFiles (fun c a w => decide (Unbroken c a w)) keptCalls).any (fun r =>
    decide (r.1.length = 4 ∧ (r.1.map Block.encode).Nodup) &&
      r.1.all fun b => decide (b.encode.length ≤ blockWeight b)) = true := by
  decide +kernel

set_option maxRecDepth 100000 in
theorem brokenCalls_run : (sampleFiles (fun _ _ _ => true) brokenCalls).any (fun r =>
    decide ((r.1.map Block.encode).Nodup) &&
      (r.1.all fun b => decide (b.encode.length ≤ blockWeight b)) &&
      match r.2.idx with
      | .whole index => decide (index.blocks.map (fun e => e.height.toNat) = [0, 2])
      | _ => false) = true := by
  decide +kernel

/-- A run of three blocks, the last of them not written. -/
theorem directory_replays_sample : ∃ blocks c,
    FileRun Unbroken (decodeIn blocks) sampleDoc blocks sampleNow c ∧ blocks.length = 4 ∧
    ∃ index, c.idx = .whole index ∧
      index.blocks.map (fun e => e.height.toNat) = List.range index.blocks.length ∧
      ∀ makeGenesis now, sampleNow ≤ now → ∃ c' bs,
        ChainFile.open (decodeIn blocks) sampleDoc makeGenesis c.dat c.idx now = .ok c' ∧
        bs <+: blocks ∧ Replays sampleDoc now bs c'.state := by
  obtain ⟨⟨blocks, c⟩, hr, hp⟩ := (Option.any_eq_true _ _).mp keptCalls_run
  rw [Bool.and_eq_true, decide_eq_true_eq, List.all_eq_true] at hp
  obtain ⟨⟨hlen, hapart⟩, hshort⟩ := hp
  have hrun : FileRun Unbroken (decodeIn blocks) sampleDoc blocks sampleNow c :=
    fileRun_of_sample (fun _ _ _ hmet => of_decide_eq_true hmet) hr
  exact ⟨blocks, c, hrun, hlen, directory_replays hrun
    (readsBack_decodeIn hapart fun b hb => of_decide_eq_true (hshort b hb))⟩

/-- After a failed append the next block is indexed over the gap. -/
theorem directory_broken : ¬ ∀ (decode : Bytes → Option (Block Header)) blocks since c,
    FileRun (fun _ _ _ => True) decode sampleDoc blocks since c →
    (∀ b ∈ blocks, ReadsBack decode b) →
    ∃ index, c.idx = .whole index ∧
      index.blocks.map (fun e => e.height.toNat) = List.range index.blocks.length := by
  intro hall
  obtain ⟨⟨blocks, c⟩, hr, hp⟩ := (Option.any_eq_true _ _).mp brokenCalls_run
  rw [Bool.and_eq_true, Bool.and_eq_true, decide_eq_true_eq, List.all_eq_true] at hp
  obtain ⟨⟨hapart, hshort⟩, hgap⟩ := hp
  have hrun : FileRun (fun _ _ _ => True) (decodeIn blocks) sampleDoc blocks sampleNow c :=
    fileRun_of_sample (fun _ _ _ _ => trivial) hr
  obtain ⟨index, hidx, hheights⟩ := hall _ _ _ _ hrun
    (readsBack_decodeIn hapart fun b hb => of_decide_eq_true (hshort b hb))
  dsimp only at hgap
  rw [hidx, decide_eq_true_eq] at hgap
  have hlen : index.blocks.length = 2 := by
    have hcount := congrArg List.length hgap
    rwa [List.length_map] at hcount
  rw [hgap, hlen] at hheights
  cases hheights

end

end Sidestr
