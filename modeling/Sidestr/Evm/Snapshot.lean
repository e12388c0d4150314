/-
# Snapshots of the EVM

`EvmState.snapshot` copies what committed blocks left: the worlds, times and
block records by height, and the receipts. `EvmState.restore` makes the state
of one retained height current (`state.rs`). It keeps the whole copy, so that a
higher height can be restored as well: the records above the height and the
receipts of their transactions still answer (`restore_keeps_above`), up to the
next commit at their height. Everything up to the height is as in the state that
committed only the blocks up to it, before and after one more block
(`restore_as_if`).

Key definitions: `EvmState.snapshot`, `EvmState.restore`, `Committed`, `AsIf`.
Key theorems: `Committed.sound`, `restore_ok_iff`, `restore_as_if`.
-/
import Mathlib.Data.Finset.Lattice.Fold
import Mathlib.Order.Lattice.Nat
import Sidestr.Evm.Replay

namespace Sidestr

namespace Evm

/-- The hash a code map is keyed by. -/
class Keccak where
  keccak256 : Bytes → Hash256

/-- Why a snapshot is refused. -/
inductive RestoreError where
  | version (n : ℕ)
  | config
  | code
  | noState (height : ℕ)
  | noBlock (height : ℕ)
  | rootMismatch (height : ℕ)
  | noTime (height : ℕ)
  deriving DecidableEq

/-- A copy of the durable state. -/
structure EvmSnapshot where
  version : ℕ
  config : EvmConfig
  worlds : Map ℕ World
  times : Map ℕ UInt32
  blocks : Map ℕ BlockRecord
  receipts : List Receipt

/-- The code map is keyed by its bytes' hashes, and holds every account's code. -/
def World.validateCode [Keccak] (w : World) : Bool :=
  Finmap.all (fun hash bytes => Keccak.keccak256 bytes == hash) w.code &&
    Finmap.all (fun _ a => a.codeHash == keccakEmpty || (w.code.lookup a.codeHash).isSome) w.accounts

/-- The receipts of a block's transactions. -/
def EvmState.receiptsOf (s : EvmState) (height : ℕ) : List Receipt :=
  match s.blocks.lookup height with
  | some b => b.hashes.filterMap s.receipts.lookup
  | none => []

/-- The heights that have a record, in order. -/
def EvmState.heights (s : EvmState) : List ℕ :=
  (List.range (s.blocks.keys.sup id + 1)).filter (· ∈ s.blocks.keys)

/-- Every receipt kept, by height, then by place in the block. -/
def EvmState.receiptsInOrder (s : EvmState) : List Receipt := s.heights.flatMap s.receiptsOf

def EvmState.snapshot (s : EvmState) : EvmSnapshot :=
  ⟨1, s.config, s.worlds, s.times, s.blocks, s.receiptsInOrder⟩

section

variable [Machine] [Keccak]

/-- The durable state of a retained height, made current. -/
def EvmState.restore (s : EvmState) (snap : EvmSnapshot) (height : ℕ) : Except RestoreError EvmState :=
  if snap.version ≠ 1 then .error (.version snap.version)
  else if snap.config ≠ s.config then .error .config
  else if !Finmap.all (fun _ w => w.validateCode) snap.worlds then .error .code
  else
    match snap.worlds.lookup height, snap.blocks.lookup height, snap.times.lookup height with
    | none, _, _ => .error (.noState height)
    | some _, none, _ => .error (.noBlock height)
    | some world, some block, time =>
      if Machine.root world ≠ block.root then .error (.rootMismatch height)
      else
        match time with
        | none => .error (.noTime height)
        | some time => .ok { s with
            world
            worlds := snap.worlds
            height
            time
            times := snap.times
            blocks := snap.blocks
            receipts := Map.insertAll (snap.receipts.map fun r => (r.transactionHash, r)) ∅
            pending := []
            verdicts := ∅ }

/-! ### Runs -/

variable [Bitcoin]

omit [Keccak] in
/-- A run of the state that judges any candidates and commits some: what was
committed, in order. -/
inductive Committed (cfg : EvmConfig) : List Pending → EvmState → Prop
  | start : Committed cfg [] (EvmState.new cfg)
  | prepared {ps : List Pending} {s : EvmState} (h : Committed cfg ps s) (hash : BlockHash)
      (height : ℕ) (time : UInt32) (txdata : List Transaction) :
      Committed cfg ps (s.prepare hash height time txdata).2
  | committed {ps : List Pending} {s : EvmState} {hash : BlockHash} {p : Pending}
      (h : Committed cfg ps s) (hwait : s.pending.find? (fun q => q.hash == hash) = some p) :
      Committed cfg (ps ++ [p]) (s.commit hash)

omit [Bitcoin] [Keccak] in
/-- The durable state after some commits. -/
def settled (cfg : EvmConfig) (ps : List Pending) : EvmState :=
  ps.foldl (fun s p => s.settle p.height p.time ⟨p.verdict, p.world, p.receipts⟩) (EvmState.new cfg)

omit [Bitcoin] [Keccak] in
theorem settled_concat (cfg : EvmConfig) (ps : List Pending) (p : Pending) :
    settled cfg (ps ++ [p]) =
      (settled cfg ps).settle p.height p.time ⟨p.verdict, p.world, p.receipts⟩ := by
  unfold settled
  rw [List.foldl_append, List.foldl_cons, List.foldl_nil]

omit [Bitcoin] [Keccak] in
/-- What a candidate that waits is: its verdict names its receipts and its root. -/
structure Consistent (p : Pending) : Prop where
  hashes : p.verdict.hashes = p.receipts.map Receipt.transactionHash
  root : p.verdict.root = some (Machine.root p.world)

omit [Keccak] in
/-- The hashes of a transaction's carriers are those of its receipts. -/
theorem applyOutputs_hashes {cfg : EvmConfig} {env : BlockEnvironment} {tx : Transaction} :
    ∀ {l : List (TxOut × ℕ)} {s : TxRun} {before : List Hash256},
      s.receipts.map Receipt.transactionHash = before ++ s.out.hashes →
      (applyOutputs cfg env tx l s).receipts.map Receipt.transactionHash =
        before ++ (applyOutputs cfg env tx l s).out.hashes
  | [], _, _, h => h
  | (o, i) :: l, s, before, h => by
    unfold applyOutputs
    cases ho : applyOutput cfg env tx i o s with
    | error e => exact h
    | ok s' =>
      refine applyOutputs_hashes ?_
      unfold applyOutput at ho
      split at ho
      · split at ho
        · rw [← Except.ok.inj ho]
          exact h
        · cases ho
      · split at ho
        · rw [← Except.ok.inj ho]
          exact h
        · split at ho
          · cases ho
          · split at ho
            · cases ho
            · rw [← Except.ok.inj ho]
              unfold applyCarried receiptOf
              split_ifs <;>
                rw [List.map_append, h, List.map_singleton, List.append_assoc]

omit [Keccak] in
theorem runTxs_hashes {cfg : EvmConfig} {env : BlockEnvironment} :
    ∀ {l : List (Transaction × ℕ)} {b : BlockRun},
      b.receipts.map Receipt.transactionHash = b.hashes → (runTxs cfg env l b).error = none →
      (runTxs cfg env l b).receipts.map Receipt.transactionHash = (runTxs cfg env l b).hashes
  | [], _, h, _ => h
  | (tx, i) :: l, b, h, hok => by
    unfold runTxs at hok ⊢
    dsimp only at hok ⊢
    cases he : (applyTx cfg b.world tx env b.receipts).out.error with
    | some e =>
      rw [he] at hok
      cases hok
    | none =>
      rw [he] at hok
      refine runTxs_hashes ?_ hok
      exact applyOutputs_hashes (by rw [h, List.append_nil])

omit [Keccak] in
theorem execute_consistent {cfg : EvmConfig} {world : World} {height : ℕ} {time : UInt32}
    {txdata : List Transaction} {hash : BlockHash}
    (hok : (execute cfg world height time txdata).verdict.ok = true) :
    Consistent ⟨hash, height, time, (execute cfg world height time txdata).world,
      (execute cfg world height time txdata).receipts,
      (execute cfg world height time txdata).verdict⟩ where
  hashes := by
    unfold Verdict.ok at hok
    rw [Option.isNone_iff_eq_none] at hok
    have herror : (runTxs cfg ⟨cfg.chainId, cfg.gasLimit, height, time⟩ (txdata.zipIdx.drop 1)
        { world }).error = none := by
      unfold execute at hok
      dsimp only at hok
      rw [Option.or_eq_none_iff, Option.or_eq_none_iff] at hok
      exact hok.1.1
    have hrun := runTxs_hashes rfl herror
    unfold execute at hok ⊢
    dsimp only at hok ⊢
    rw [hok, Option.isNone_none, if_pos rfl]
    exact hrun.symm
  root := rfl

omit [Bitcoin] [Keccak] in
/-- What holds of a run: the durable state is what the commits settle, the heights
count up, and what waits is for the next one. -/
structure Sound (cfg : EvmConfig) (ps : List Pending) (s : EvmState) : Prop where
  durable : s.durable = settled cfg ps
  height : s.height = ps.length
  config : s.config = cfg
  heights : ∀ (i : ℕ) (p : Pending), ps[i]? = some p → p.height = i + 1
  committed : ∀ p ∈ ps, Consistent p
  waiting : ∀ p ∈ s.pending, p.height = s.height + 1 ∧ Consistent p

omit [Keccak] in
theorem Sound.prepare {cfg : EvmConfig} {ps : List Pending} {s : EvmState} (h : Sound cfg ps s)
    (hash : BlockHash) (height : ℕ) (time : UInt32) (txdata : List Transaction) :
    Sound cfg ps (s.prepare hash height time txdata).2 := by
  unfold EvmState.prepare
  cases hf : s.pending.find? fun p => p.hash == hash with
  | some p => exact h
  | none =>
    dsimp only
    split_ifs with hh hok
    · exact ⟨h.durable, h.height, h.config, h.heights, h.committed, h.waiting⟩
    · refine ⟨h.durable, h.height, h.config, h.heights, h.committed, fun q hq => ?_⟩
      rcases List.mem_append.mp hq with hq | hq
      · exact h.waiting q hq
      · rw [List.mem_singleton.mp hq]
        exact ⟨show height = s.height + 1 by omega, execute_consistent hok⟩
    · exact ⟨h.durable, h.height, h.config, h.heights, h.committed, h.waiting⟩

omit [Bitcoin] [Keccak] in
theorem Sound.commit {cfg : EvmConfig} {ps : List Pending} {s : EvmState} (h : Sound cfg ps s)
    {hash : BlockHash} {p : Pending} (hwait : s.pending.find? (fun q => q.hash == hash) = some p) :
    Sound cfg (ps ++ [p]) (s.commit hash) := by
  obtain ⟨hp, hc⟩ := h.waiting p (List.mem_of_find?_eq_some hwait)
  rw [h.height] at hp
  have heq : s.commit hash =
      { s.settle p.height p.time ⟨p.verdict, p.world, p.receipts⟩ with verdicts := s.verdicts } := by
    unfold EvmState.commit
    rw [hwait]
    rfl
  have hs : s.settle p.height p.time ⟨p.verdict, p.world, p.receipts⟩ =
      s.durable.settle p.height p.time ⟨p.verdict, p.world, p.receipts⟩ := rfl
  refine ⟨?_, ?_, ?_, fun i q hq => ?_, fun q hq => ?_, fun q hq => ?_⟩
  · rw [heq, settled_concat, ← h.durable]
    rfl
  · rw [heq, List.length_append, List.length_singleton]
    exact hp
  · rw [heq]
    exact h.config
  · by_cases hi : i < ps.length
    · rw [List.getElem?_append_left hi] at hq
      exact h.heights i q hq
    · rw [List.getElem?_append_right (by omega), List.getElem?_singleton] at hq
      split_ifs at hq
      rw [← Option.some.inj hq, hp]
      omega
  · rcases List.mem_append.mp hq with hq | hq
    · exact h.committed q hq
    · rw [List.mem_singleton.mp hq]
      exact hc
  · rw [heq] at hq
    cases hq

omit [Keccak] in
theorem Committed.sound {cfg : EvmConfig} {ps : List Pending} {s : EvmState}
    (h : Committed cfg ps s) : Sound cfg ps s := by
  induction h with
  | start =>
    refine ⟨rfl, rfl, rfl, fun i p hp => ?_, fun p hp => ?_, fun p hp => ?_⟩
    · rw [List.getElem?_nil] at hp
      cases hp
    · cases hp
    · cases hp
  | prepared _ hash height time txdata ih => exact ih.prepare hash height time txdata
  | committed _ hwait ih => exact ih.commit hwait

/-! ### The records by height -/

omit [Machine] [Keccak] [Bitcoin] in
/-- A map by height: the genesis' value, then what each commit puts at its height. -/
def byHeight {α : Type} (start : α) (f : Pending → α) (ps : List Pending) : Map ℕ α :=
  ps.foldl (fun m p => m.insert p.height (f p)) (Finmap.singleton 0 start)

omit [Machine] [Keccak] [Bitcoin] in
/-- The commits' heights count up from one. -/
def CountUp (ps : List Pending) : Prop := ∀ (i : ℕ) (p : Pending), ps[i]? = some p → p.height = i + 1

omit [Machine] [Keccak] [Bitcoin] in
theorem CountUp.left {ps qs : List Pending} (h : CountUp (ps ++ qs)) : CountUp ps := fun i p hp =>
  h i p (by rw [List.getElem?_append_left (List.getElem?_eq_some_iff.mp hp).1, hp])

omit [Machine] [Keccak] [Bitcoin] in
theorem CountUp.last {ps : List Pending} {p : Pending} (h : CountUp (ps ++ [p])) :
    p.height = ps.length + 1 :=
  h ps.length p (by rw [List.getElem?_append_right le_rfl, Nat.sub_self]; rfl)

omit [Machine] [Keccak] [Bitcoin] in
/-- The value at a height is the one its commit put there. -/
theorem byHeight_lookup {α : Type} (start : α) (f : Pending → α) {ps : List Pending} :
    CountUp ps → ∀ k, (byHeight start f ps).lookup k =
      if k = 0 then some start else (ps[k - 1]?).map f := by
  induction ps using List.reverseRecOn with
  | nil =>
    intro _ k
    by_cases hk : k = 0
    · rw [hk]
      exact Finmap.lookup_singleton_eq
    · rw [if_neg hk, List.getElem?_nil, Option.map_none]
      exact Finmap.lookup_eq_none.mpr (mt (Finmap.mem_singleton _ _ _).mp hk)
  | append_singleton ps p ih =>
    intro h k
    have hp := h.last
    have hcons : byHeight start f (ps ++ [p]) = (byHeight start f ps).insert p.height (f p) := by
      unfold byHeight
      rw [List.foldl_append, List.foldl_cons, List.foldl_nil]
    rw [hcons]
    by_cases hk : k = p.height
    · rw [hk, Finmap.lookup_insert, hp, if_neg (by omega), Nat.add_sub_cancel,
        List.getElem?_append_right le_rfl, Nat.sub_self]
      rfl
    · rw [Finmap.lookup_insert_of_ne _ hk, ih h.left k]
      by_cases hz : k = 0
      · rw [if_pos hz, if_pos hz]
      · rw [if_neg hz, if_neg hz]
        by_cases hlt : k - 1 < ps.length
        · rw [List.getElem?_append_left hlt]
        · rw [List.getElem?_append_right (by omega), List.getElem?_singleton, if_neg (by omega),
            List.getElem?_eq_none (by omega)]

omit [Machine] [Keccak] [Bitcoin] in
/-- The record a commit leaves. -/
def Pending.record (p : Pending) : BlockRecord := ⟨p.verdict.hashes, p.verdict.root.getD 0⟩

omit [Machine] [Keccak] [Bitcoin] in
/-- The receipts of some commits, keyed. -/
def keyed (ps : List Pending) : List (Hash256 × Receipt) :=
  ps.flatMap fun p => p.receipts.map fun r => (r.transactionHash, r)

omit [Machine] [Keccak] [Bitcoin] in
theorem insertAll_append {K V : Type} [DecidableEq K] : ∀ (l l' : List (K × V)) (m : Map K V),
    Map.insertAll (l ++ l') m = Map.insertAll l' (Map.insertAll l m)
  | [], _, _ => rfl
  | _ :: l, l', m => insertAll_append l l' (m.insert _ _)

omit [Keccak] [Bitcoin] in
/-- What the commits left, map by map. -/
theorem settled_maps (cfg : EvmConfig) (ps : List Pending) :
    (settled cfg ps).config = cfg ∧ (settled cfg ps).pending = [] ∧
    (settled cfg ps).blocks = byHeight ⟨[], Machine.root {}⟩ Pending.record ps ∧
    (settled cfg ps).worlds = byHeight {} Pending.world ps ∧
    (settled cfg ps).times = byHeight 0 Pending.time ps ∧
    (settled cfg ps).receipts = Map.insertAll (keyed ps) ∅ := by
  induction ps using List.reverseRecOn with
  | nil => exact ⟨rfl, rfl, rfl, rfl, rfl, rfl⟩
  | append_singleton ps p ih =>
    obtain ⟨hc, -, hb, hw, ht, hr⟩ := ih
    rw [settled_concat]
    unfold EvmState.settle
    refine ⟨hc, rfl, ?_, ?_, ?_, ?_⟩
    · dsimp only
      rw [hb, byHeight, byHeight, List.foldl_append]
      rfl
    · dsimp only
      rw [hw, byHeight, byHeight, List.foldl_append]
      rfl
    · dsimp only
      rw [ht, byHeight, byHeight, List.foldl_append]
      rfl
    · dsimp only
      rw [hr, keyed, keyed, List.flatMap_append, insertAll_append, List.flatMap_singleton]

omit [Keccak] [Bitcoin] in
/-- The world and the time that are current are the last height's. -/
theorem settled_current (cfg : EvmConfig) {ps : List Pending} (h : CountUp ps) :
    (settled cfg ps).height = ps.length ∧
    (settled cfg ps).worlds.lookup ps.length = some (settled cfg ps).world ∧
    (settled cfg ps).times.lookup ps.length = some (settled cfg ps).time := by
  induction ps using List.reverseRecOn with
  | nil => exact ⟨rfl, Finmap.lookup_singleton_eq, Finmap.lookup_singleton_eq⟩
  | append_singleton ps p ih =>
    have hp := h.last
    rw [settled_concat, List.length_append, List.length_singleton, ← hp]
    exact ⟨rfl, Finmap.lookup_insert _, Finmap.lookup_insert _⟩

omit [Keccak] [Bitcoin] in
/-- A retained world's root is the one its record holds. -/
theorem byHeight_root {ps : List Pending} (h : CountUp ps) (hc : ∀ p ∈ ps, Consistent p) {k : ℕ}
    (hk : k ≤ ps.length) : ∃ (w : World) (b : BlockRecord) (time : UInt32),
      (byHeight {} Pending.world ps).lookup k = some w ∧
      (byHeight ⟨[], Machine.root {}⟩ Pending.record ps).lookup k = some b ∧
      (byHeight 0 Pending.time ps).lookup k = some time ∧ Machine.root w = b.root := by
  rw [byHeight_lookup _ _ h, byHeight_lookup _ _ h, byHeight_lookup _ _ h]
  by_cases hz : k = 0
  · rw [if_pos hz, if_pos hz, if_pos hz]
    exact ⟨_, _, _, rfl, rfl, rfl, rfl⟩
  · rw [if_neg hz, if_neg hz, if_neg hz]
    have hlt : k - 1 < ps.length := by omega
    rw [List.getElem?_eq_getElem hlt]
    refine ⟨_, _, _, rfl, rfl, rfl, ?_⟩
    unfold Pending.record
    rw [(hc _ (List.getElem_mem hlt)).root]
    rfl

omit [Machine] [Keccak] [Bitcoin] in
theorem byHeight_keys {α : Type} (start : α) (f : Pending → α) {ps : List Pending} (h : CountUp ps) :
    (byHeight start f ps).keys = Finset.range (ps.length + 1) := by
  ext k
  rw [Finmap.mem_keys, ← Finmap.lookup_isSome, byHeight_lookup _ _ h, Finset.mem_range]
  by_cases hz : k = 0
  · rw [if_pos hz, Option.isSome_some, eq_self, true_iff]
    omega
  · rw [if_neg hz, Option.isSome_map, isSome_getElem?]
    omega

omit [Machine] [Keccak] [Bitcoin] in
theorem heights_of_keys {s : EvmState} {n : ℕ} (h : s.blocks.keys = Finset.range (n + 1)) :
    s.heights = List.range (n + 1) := by
  unfold EvmState.heights
  have hsup : (Finset.range (n + 1)).sup id = n := by
    refine le_antisymm (Finset.sup_le fun k hk => ?_)
      (Finset.le_sup (f := id) (Finset.mem_range.mpr (Nat.lt_succ_self n)))
    exact Nat.lt_succ_iff.mp (Finset.mem_range.mp hk)
  rw [h, hsup]
  refine List.filter_eq_self.mpr fun k hk => decide_eq_true ?_
  rwa [Finset.mem_range, ← List.mem_range]

/-! ### Receipts -/

omit [Machine] [Keccak] [Bitcoin] in
theorem insertAll_isSome {K V : Type} [DecidableEq K] {k : K} : ∀ (l : List (K × V)) (m : Map K V),
    k ∈ l.map Prod.fst → ((Map.insertAll l m).lookup k).isSome = true
  | [], _, hk => by cases hk
  | kv :: l, m, hk => by
    by_cases hl : k ∈ l.map Prod.fst
    · exact insertAll_isSome l _ hl
    · rw [List.map_cons, List.mem_cons, or_iff_left hl] at hk
      rw [Map.insertAll_cons, Map.lookup_insertAll_of_notMem hl, hk, Finmap.lookup_insert]
      rfl

omit [Machine] [Keccak] [Bitcoin] in
/-- Inserting a list of a map's entries that leaves none out gives the map. -/
theorem insertAll_entries {K V : Type} [DecidableEq K] {l : List (K × V)} {m : Map K V}
    (hin : ∀ kv ∈ l, m.lookup kv.1 = some kv.2) (hall : ∀ k v, m.lookup k = some v → (k, v) ∈ l) :
    Map.insertAll l ∅ = m := by
  refine Finmap.ext_lookup fun k => ?_
  cases hk : (Map.insertAll l ∅).lookup k with
  | some v =>
    rcases Map.lookup_insertAll_eq_some hk with h | h
    · exact (hin _ h).symm
    · rw [Finmap.lookup_empty] at h
      cases h
  | none =>
    cases hm : m.lookup k with
    | none => rfl
    | some v =>
      have hsome := insertAll_isSome l ∅ (List.mem_map_of_mem (f := Prod.fst) (hall k v hm))
      rw [hk] at hsome
      cases hsome

omit [Machine] [Keccak] [Bitcoin] in
theorem mem_keyed {ps : List Pending} {x : Hash256} {r : Receipt} :
    (x, r) ∈ keyed ps ↔ ∃ p ∈ ps, r ∈ p.receipts ∧ r.transactionHash = x := by
  unfold keyed
  simp only [List.mem_flatMap, List.mem_map, Prod.mk.injEq]
  refine exists_congr fun p => and_congr_right fun _ => ?_
  constructor
  · rintro ⟨r', hr, hx, rfl⟩
    exact ⟨hr, hx⟩
  · rintro ⟨hr, hx⟩
    exact ⟨r, hr, hx, rfl⟩

omit [Keccak] [Bitcoin] in
/-- The receipts in order are all the receipts kept. -/
theorem receipts_kept {cfg : EvmConfig} {ps : List Pending} (h : CountUp ps)
    (hc : ∀ p ∈ ps, Consistent p) {s : EvmState} (hblocks : s.blocks = (settled cfg ps).blocks)
    (hreceipts : s.receipts = (settled cfg ps).receipts) :
    Map.insertAll (s.receiptsInOrder.map fun r => (r.transactionHash, r)) ∅ = s.receipts := by
  obtain ⟨-, -, hb, -, -, hr⟩ := settled_maps cfg ps
  rw [hb] at hblocks
  rw [hr] at hreceipts
  have hkey : ∀ x r, s.receipts.lookup x = some r →
      ∃ p ∈ ps, r ∈ p.receipts ∧ r.transactionHash = x := by
    intro x r hx
    rw [hreceipts] at hx
    rcases Map.lookup_insertAll_eq_some hx with hx | hx
    · exact mem_keyed.mp hx
    · rw [Finmap.lookup_empty] at hx
      cases hx
  refine insertAll_entries (fun kv hkv => ?_) fun x r hx => ?_
  · obtain ⟨r, hmem, rfl⟩ := List.mem_map.mp hkv
    obtain ⟨k, -, hk⟩ := List.mem_flatMap.mp hmem
    unfold EvmState.receiptsOf at hk
    cases hl : s.blocks.lookup k with
    | none =>
      rw [hl] at hk
      cases hk
    | some b =>
      rw [hl] at hk
      obtain ⟨x, -, hx⟩ := List.mem_filterMap.mp hk
      obtain ⟨-, -, -, rfl⟩ := hkey x r hx
      exact hx
  · obtain ⟨p, hp, hmem, rfl⟩ := hkey x r hx
    obtain ⟨i, hi, hget⟩ := List.getElem_of_mem hp
    have hblock : s.blocks.lookup (i + 1) = some p.record := by
      rw [hblocks, byHeight_lookup _ _ h, if_neg (Nat.succ_ne_zero i), Nat.add_sub_cancel,
        List.getElem?_eq_getElem hi, hget]
      rfl
    refine List.mem_map.mpr ⟨r, List.mem_flatMap.mpr ⟨i + 1, ?_, ?_⟩, rfl⟩
    · rw [heights_of_keys (hblocks ▸ byHeight_keys _ _ h), List.mem_range]
      omega
    · unfold EvmState.receiptsOf
      rw [hblock]
      refine List.mem_filterMap.mpr ⟨r.transactionHash, ?_, hx⟩
      show r.transactionHash ∈ p.verdict.hashes
      rw [(hc p hp).hashes]
      exact List.mem_map_of_mem hmem

/-! ### Restoring -/

/-- `t` answers as `r` up to a height, and for the transactions not in `above`. -/
structure AsIf (height : ℕ) (above : List Hash256) (t r : EvmState) : Prop where
  config : t.config = r.config
  world : t.world = r.world
  heights : t.height = height ∧ r.height = height
  time : t.time = r.time
  root : t.root = r.root
  blocks : ∀ k ≤ height, t.blocks.lookup k = r.blocks.lookup k
  worlds : ∀ k ≤ height, t.worlds.lookup k = r.worlds.lookup k
  times : ∀ k ≤ height, t.times.lookup k = r.times.lookup k
  receipts : ∀ x, x ∉ above → t.receipts.lookup x = r.receipts.lookup x

/-- `t` keeps what `s` had above a height. -/
structure KeepsAbove (height : ℕ) (t s : EvmState) : Prop where
  blocks : ∀ k, height < k → t.blocks.lookup k = s.blocks.lookup k
  worlds : ∀ k, height < k → t.worlds.lookup k = s.worlds.lookup k
  times : ∀ k, height < k → t.times.lookup k = s.times.lookup k

variable {cfg : EvmConfig} {ps : List Pending} {s r t q : EvmState} {height : ℕ} {above : List Hash256}

/-- **A retained height restores** exactly when every retained world's code is
keyed by its hash. -/
theorem restore_ok_iff (h : Committed cfg ps s) (hq : q.config = cfg) (hh : height ≤ ps.length) :
    (∃ t, q.restore s.snapshot height = .ok t) ↔
      Finmap.all (fun _ w => w.validateCode) s.worlds = true := by
  have hs := h.sound
  obtain ⟨-, -, hb, hw, ht, -⟩ := settled_maps cfg ps
  rw [← hs.durable] at hb hw ht
  obtain ⟨w, b, time, hlw, hlb, hlt, hroot⟩ := byHeight_root hs.heights hs.committed hh
  have hw' : s.worlds.lookup height = some w := by
    rw [← hlw, ← hw]
    rfl
  have hb' : s.blocks.lookup height = some b := by
    rw [← hlb, ← hb]
    rfl
  have ht' : s.times.lookup height = some time := by
    rw [← hlt, ← ht]
    rfl
  unfold EvmState.restore EvmState.snapshot
  dsimp only
  rw [if_neg (not_not.mpr rfl), if_neg (not_not.mpr (hs.config.trans hq.symm)), hw', hb', ht']
  dsimp only
  rw [if_neg (not_not.mpr hroot)]
  by_cases hv : Finmap.all (fun _ w => w.validateCode) s.worlds = true
  · simp [hv]
  · simp [hv]

omit [Bitcoin] in
/-- What a restored state holds. -/
theorem restore_maps {snap : EvmSnapshot} (h : s.restore snap height = .ok t) :
    t.config = s.config ∧ t.height = height ∧ t.pending = [] ∧ t.worlds = snap.worlds ∧
    t.blocks = snap.blocks ∧ t.times = snap.times ∧
    t.receipts = Map.insertAll (snap.receipts.map fun r => (r.transactionHash, r)) ∅ ∧
    snap.worlds.lookup height = some t.world ∧ snap.times.lookup height = some t.time := by
  unfold EvmState.restore at h
  split_ifs at h
  split at h
  · cases h
  · cases h
  · split_ifs at h
    split at h
    · cases h
    · rename_i hw hb _ _ time ht
      rw [← Except.ok.inj h]
      exact ⟨rfl, rfl, rfl, rfl, rfl, rfl, rfl, hw, ht⟩

omit [Machine] [Keccak] [Bitcoin] in
theorem keyed_append (ps qs : List Pending) : keyed (ps ++ qs) = keyed ps ++ keyed qs :=
  List.flatMap_append

/-- The hashes of the transactions that were carried after a height. -/
def carriedAfter (height : ℕ) (ps : List Pending) : List Hash256 :=
  (keyed (ps.drop height)).map Prod.fst

/-- A restored height is as if the blocks above it had not been committed, and
what it held above stays. -/
theorem restore_asIf (h : Committed cfg ps s) (hr : Committed cfg (ps.take height) r)
    (hq : q.config = cfg) (hh : height ≤ ps.length) (hok : q.restore s.snapshot height = .ok t) :
    AsIf height (carriedAfter height ps) t r ∧ KeepsAbove height t s ∧ t.pending = [] := by
  have hs := h.sound
  have hs' := hr.sound
  have hlen : (ps.take height).length = height := List.length_take_of_le hh
  obtain ⟨hc, hheight, hp, hw, hb, htimes, hreceipts, hcw, hct⟩ := restore_maps hok
  have hkept := receipts_kept hs.heights hs.committed (s := s)
    (congrArg EvmState.blocks hs.durable :) (congrArg EvmState.receipts hs.durable :)
  obtain ⟨-, -, hsb, hsw, hst, hsr⟩ := settled_maps cfg ps
  obtain ⟨-, -, hrb, hrw, hrt, hrr⟩ := settled_maps cfg (ps.take height)
  rw [← hs.durable] at hsb hsw hst hsr
  rw [← hs'.durable] at hrb hrw hrt hrr
  obtain ⟨-, hcur, hcurt⟩ := settled_current cfg hs'.heights
  rw [← hs'.durable, hlen] at hcur hcurt
  -- a record at or below the height is of a commit that both made
  have hbelow : ∀ {α : Type} (start : α) (f : Pending → α), ∀ k ≤ height,
      (byHeight start f ps).lookup k = (byHeight start f (ps.take height)).lookup k := by
    intro α start f k hk
    rw [byHeight_lookup _ _ hs.heights, byHeight_lookup _ _ hs'.heights]
    by_cases hz : k = 0
    · rw [if_pos hz, if_pos hz]
    · rw [if_neg hz, if_neg hz, List.getElem?_take_of_lt (by omega)]
  have hblocks : ∀ k ≤ height, t.blocks.lookup k = r.blocks.lookup k := fun k hk => by
    rw [hb]
    exact (congrArg (Finmap.lookup k) hsb).trans ((hbelow _ _ k hk).trans
      (congrArg (Finmap.lookup k) hrb).symm)
  have hworlds : ∀ k ≤ height, t.worlds.lookup k = r.worlds.lookup k := fun k hk => by
    rw [hw]
    exact (congrArg (Finmap.lookup k) hsw).trans ((hbelow _ _ k hk).trans
      (congrArg (Finmap.lookup k) hrw).symm)
  have htms : ∀ k ≤ height, t.times.lookup k = r.times.lookup k := fun k hk => by
    rw [htimes]
    exact (congrArg (Finmap.lookup k) hst).trans ((hbelow _ _ k hk).trans
      (congrArg (Finmap.lookup k) hrt).symm)
  have hrheight : r.height = height := hs'.height.trans hlen
  refine ⟨⟨?_, ?_, ⟨hheight, hrheight⟩, ?_, ?_, hblocks, hworlds, htms, fun x hx => ?_⟩,
    ⟨fun k _ => ?_, fun k _ => ?_, fun k _ => ?_⟩, hp⟩
  · rw [hc, hq, hs'.config]
  · have hl := hworlds height le_rfl
    rw [hw] at hl
    exact Option.some.inj ((hcw.symm.trans hl).trans hcur)
  · have hl := htms height le_rfl
    rw [htimes] at hl
    exact Option.some.inj ((hct.symm.trans hl).trans hcurt)
  · unfold EvmState.root
    rw [hheight, hrheight, hblocks height le_rfl]
  · have hts : t.receipts = s.receipts := hreceipts.trans hkept
    have hsplit : s.receipts = Map.insertAll (keyed (ps.drop height))
        (Map.insertAll (keyed (ps.take height)) ∅) := by
      rw [← insertAll_append, ← keyed_append, List.take_append_drop]
      exact hsr
    rw [hts, hsplit, Map.lookup_insertAll_of_notMem hx]
    exact (congrArg (Finmap.lookup x) hrr).symm
  · rw [hb]
    rfl
  · rw [hw]
    rfl
  · rw [htimes]
    rfl

/-! ### After the restore -/

omit [Keccak] in
/-- A block accepted with nothing waiting settles what its own run gives. -/
theorem prepare_settle (hp : t.pending = []) {b : EvmBlock}
    (hok : (t.prepare b.hash b.height b.time b.txdata).1.ok = true) :
    ((t.prepare b.hash b.height b.time b.txdata).2.commit b.hash).durable =
      t.settle b.height b.time (execute t.config t.world b.height b.time b.txdata) := by
  unfold EvmState.prepare at hok ⊢
  rw [hp, List.find?_nil] at hok ⊢
  dsimp only at hok ⊢
  by_cases hheight : b.height = 0 ∨ b.height - 1 ≠ t.height
  · rw [if_pos hheight] at hok
    cases hok
  · rw [if_neg hheight] at hok ⊢
    dsimp only at hok ⊢
    refine commit_durable ?_
    rw [if_pos hok]
    exact List.find?_cons_of_pos (beq_self_eq_true _)

omit [Machine] [Keccak] [Bitcoin] in
theorem AsIf.of_durable (h : AsIf height above t.durable r.durable) : AsIf height above t r :=
  ⟨h.config, h.world, h.heights, h.time, h.root, h.blocks, h.worlds, h.times, h.receipts⟩

omit [Machine] [Keccak] [Bitcoin] in
theorem KeepsAbove.of_durable (h : KeepsAbove height t.durable s) : KeepsAbove height t s :=
  ⟨h.blocks, h.worlds, h.times⟩

omit [Machine] [Keccak] [Bitcoin] in
theorem lookup_insert_le {α : Type} {m m' : Map ℕ α} {n : ℕ} (a : α)
    (h : ∀ k ≤ n, m.lookup k = m'.lookup k) :
    ∀ k ≤ n + 1, (m.insert (n + 1) a).lookup k = (m'.insert (n + 1) a).lookup k := by
  intro k hk
  rcases Nat.lt_or_eq_of_le hk with hlt | rfl
  · rw [Finmap.lookup_insert_of_ne _ hlt.ne, Finmap.lookup_insert_of_ne _ hlt.ne,
      h k (Nat.le_of_lt_succ hlt)]
  · rw [Finmap.lookup_insert, Finmap.lookup_insert]

omit [Machine] [Keccak] [Bitcoin] in
/-- One more block on both. -/
theorem AsIf.settle (h : AsIf height above t r) (time : UInt32) (e : Executed) :
    AsIf (height + 1) above (t.settle (height + 1) time e) (r.settle (height + 1) time e) where
  config := h.config
  world := rfl
  heights := ⟨rfl, rfl⟩
  time := rfl
  root := by
    unfold EvmState.root EvmState.settle
    rw [Finmap.lookup_insert, Finmap.lookup_insert]
  blocks := lookup_insert_le _ h.blocks
  worlds := lookup_insert_le _ h.worlds
  times := lookup_insert_le _ h.times
  receipts x hx := by
    unfold EvmState.settle
    dsimp only
    rw [Map.lookup_insertAll _ t.receipts, Map.lookup_insertAll _ r.receipts, h.receipts x hx]

omit [Machine] [Keccak] [Bitcoin] in
theorem KeepsAbove.settle (h : KeepsAbove height t s) (time : UInt32) (e : Executed) :
    KeepsAbove (height + 1) (t.settle (height + 1) time e) s where
  blocks k hk := (Finmap.lookup_insert_of_ne _ hk.ne').trans (h.blocks k (Nat.lt_of_succ_lt hk))
  worlds k hk := (Finmap.lookup_insert_of_ne _ hk.ne').trans (h.worlds k (Nat.lt_of_succ_lt hk))
  times k hk := (Finmap.lookup_insert_of_ne _ hk.ne').trans (h.times k (Nat.lt_of_succ_lt hk))

omit [Keccak] in
/-- The same next block gets the same verdict. -/
theorem AsIf.prepare (h : AsIf height above t r) (hp : t.pending = []) (hp' : r.pending = [])
    (b : EvmBlock) : (t.prepare b.hash b.height b.time b.txdata).1 =
      (r.prepare b.hash b.height b.time b.txdata).1 := by
  unfold EvmState.prepare
  rw [hp, hp', h.config, h.world, h.heights.1, h.heights.2, List.find?_nil]
  dsimp only
  split_ifs <;> rfl

omit [Keccak] in
/-- **From then on**: the same blocks are accepted with the same verdicts, and
leave states that answer alike up to the height they reach. -/
theorem AsIf.replay : ∀ (bs : List EvmBlock) {height : ℕ} {t r : EvmState},
    AsIf height above t r → KeepsAbove height t s → t.pending = [] → r.pending = [] →
    (Evm.replay t bs = none ∧ Evm.replay r bs = none) ∨
    ∃ vs t' r', Evm.replay t bs = some (vs, t') ∧ Evm.replay r bs = some (vs, r') ∧
      AsIf (height + bs.length) above t' r' ∧ KeepsAbove (height + bs.length) t' s
  | [], _, t, r, h, hk, _, _ => .inr ⟨[], t, r, rfl, rfl, h, hk⟩
  | b :: bs, height, t, r, h, hk, hp, hp' => by
    unfold Evm.replay
    dsimp only
    rw [h.prepare hp hp' b]
    by_cases hok : (r.prepare b.hash b.height b.time b.txdata).1.ok = true
    · rw [if_pos hok, if_pos hok]
      have hokt : (t.prepare b.hash b.height b.time b.txdata).1.ok = true := by
        rwa [h.prepare hp hp' b]
      obtain ⟨hbh, -, -, hpn, -⟩ := prepare_commit hp hokt
      obtain ⟨-, -, -, hpn', -⟩ := prepare_commit hp' hok
      have hs := prepare_settle hp hokt
      have hs' := prepare_settle hp' hok
      rw [hbh, h.heights.1] at hs
      rw [hbh, h.heights.1, ← h.config, ← h.world] at hs'
      rw [hbh, h.heights.1] at hpn hpn' ⊢
      have hstep := (h.settle b.time
        (execute t.config t.world (height + 1) b.time b.txdata))
      have hkeep := (hk.settle b.time
        (execute t.config t.world (height + 1) b.time b.txdata))
      rw [← hs] at hstep hkeep
      rw [← hs'] at hstep
      have hnext := AsIf.replay bs hstep.of_durable hkeep.of_durable hpn hpn'
      rcases hnext with ⟨hnone, hnone'⟩ | ⟨vs, t', r', ht, hr, hasif, hkeeps⟩
      · exact .inl ⟨by rw [hnone]; rfl, by rw [hnone']; rfl⟩
      · refine .inr ⟨_, t', r', by rw [ht]; rfl, by rw [hr]; rfl, ?_⟩
        rw [List.length_cons, Nat.add_comm bs.length, ← Nat.add_assoc]
        exact ⟨hasif, hkeeps⟩
    · rw [if_neg hok, if_neg hok]
      exact .inl ⟨rfl, rfl⟩

omit [Machine] [Keccak] [Bitcoin] in
/-- The list of receipts begins with that of the state without the blocks
above, when none of their transactions was carried before. -/
theorem AsIf.receiptsInOrder (h : AsIf height above t r) {m : ℕ} (hm : height ≤ m)
    (ht : t.blocks.keys = Finset.range (m + 1)) (hr : r.blocks.keys = Finset.range (height + 1))
    (hfresh : ∀ k b, r.blocks.lookup k = some b → ∀ x ∈ b.hashes, x ∉ above) :
    r.receiptsInOrder <+: t.receiptsInOrder := by
  have hblock : ∀ k ∈ List.range (height + 1), t.receiptsOf k = r.receiptsOf k := by
    intro k hk
    rw [List.mem_range, Nat.lt_succ_iff] at hk
    unfold EvmState.receiptsOf
    rw [h.blocks k hk]
    cases hb : r.blocks.lookup k with
    | none => rfl
    | some b => exact List.filterMap_congr fun x hx => h.receipts x (hfresh k b hb x hx)
  unfold EvmState.receiptsInOrder
  have hsplit : List.range (m + 1) =
      List.range (height + 1) ++ (List.range (m - height)).map (height + 1 + ·) := by
    rw [← List.range_add]
    congr 1
    omega
  rw [heights_of_keys ht, heights_of_keys hr, hsplit, List.flatMap_append,
    List.flatMap_congr hblock]
  exact List.prefix_append _ _

/-- **A restored height is current, and the others are kept.** The restore
succeeds exactly when every retained world's code is keyed by its hash. Up to
the height the state then answers as the one that committed only the blocks up
to it; so it does after any further blocks, which it judges alike. What was
above stays until a commit at its height. -/
theorem restore_as_if (h : Committed cfg ps s) (hr : Committed cfg (ps.take height) r)
    (hq : q.config = cfg) (hh : height ≤ ps.length) :
    ((∃ t, q.restore s.snapshot height = .ok t) ↔
      Finmap.all (fun _ w => w.validateCode) s.worlds = true) ∧
    ∀ t, q.restore s.snapshot height = .ok t →
      AsIf height (carriedAfter height ps) t r ∧ KeepsAbove height t s ∧
      ((∀ p ∈ ps.take height, ∀ x ∈ p.verdict.hashes, x ∉ carriedAfter height ps) →
        r.receiptsInOrder <+: t.receiptsInOrder) ∧
      ∀ bs, (replay t bs = none ∧ replay r.durable bs = none) ∨
        ∃ vs t' r', replay t bs = some (vs, t') ∧ replay r.durable bs = some (vs, r') ∧
          AsIf (height + bs.length) (carriedAfter height ps) t' r' ∧
          KeepsAbove (height + bs.length) t' s := by
  refine ⟨restore_ok_iff h hq hh, fun t hok => ?_⟩
  obtain ⟨hasif, hkeeps, hp⟩ := restore_asIf h hr hq hh hok
  refine ⟨hasif, hkeeps, fun hfresh => ?_, fun bs => ?_⟩
  · have hs := h.sound
    have hs' := hr.sound
    obtain ⟨-, -, -, -, hb, -⟩ := restore_maps hok
    have hsb : s.blocks = byHeight ⟨[], Machine.root {}⟩ Pending.record ps :=
      (congrArg EvmState.blocks hs.durable :).trans (settled_maps cfg ps).2.2.1
    have hrb : r.blocks = byHeight ⟨[], Machine.root {}⟩ Pending.record (ps.take height) :=
      (congrArg EvmState.blocks hs'.durable :).trans (settled_maps cfg _).2.2.1
    refine hasif.receiptsInOrder hh ?_ ?_ fun k b hk => ?_
    · rw [hb]
      exact (congrArg Finmap.keys hsb).trans (byHeight_keys _ _ hs.heights)
    · rw [hrb, byHeight_keys _ _ hs'.heights, List.length_take_of_le hh]
    · rw [hrb, byHeight_lookup _ _ hs'.heights] at hk
      by_cases hz : k = 0
      · rw [if_pos hz] at hk
        rw [← Option.some.inj hk]
        intro x hx
        cases hx
      · rw [if_neg hz] at hk
        obtain ⟨p, hp, rfl⟩ := Option.map_eq_some_iff.mp hk
        exact hfresh p (List.mem_of_getElem? hp)
  · have hdur : AsIf height (carriedAfter height ps) t r.durable :=
      ⟨hasif.config, hasif.world, hasif.heights, hasif.time, hasif.root, hasif.blocks, hasif.worlds,
        hasif.times, hasif.receipts⟩
    exact hdur.replay bs hkeeps hp rfl

omit [Keccak] in
/-- A replay commits as many blocks as it is given. -/
theorem committed_of_replay : ∀ {bs : List EvmBlock} {ps : List Pending} {s t : EvmState}
    {vs : List Verdict}, Committed cfg ps s → s.pending = [] → replay s bs = some (vs, t) →
    ∃ qs, Committed cfg (ps ++ qs) t ∧ qs.length = bs.length
  | [], ps, s, t, vs, h, _, hrun => by
    simp only [replay, Option.some.injEq, Prod.mk.injEq] at hrun
    exact ⟨[], by rwa [List.append_nil, ← hrun.2], rfl⟩
  | b :: bs, ps, s, t, vs, h, hp, hrun => by
    unfold replay at hrun
    dsimp only at hrun
    split_ifs at hrun with hok
    obtain ⟨⟨vs', t'⟩, hrest, heq⟩ := Option.map_eq_some_iff.mp hrun
    obtain ⟨-, rfl⟩ := Prod.mk.inj heq
    obtain ⟨-, -, -, hpn, -⟩ := prepare_commit hp hok
    have hwait : ∃ p, (s.prepare b.hash b.height b.time b.txdata).2.pending.find?
        (fun q => q.hash == b.hash) = some p := by
      unfold EvmState.prepare at hok ⊢
      rw [hp, List.find?_nil] at hok ⊢
      dsimp only at hok ⊢
      by_cases hheight : b.height = 0 ∨ b.height - 1 ≠ s.height
      · rw [if_pos hheight] at hok
        cases hok
      · rw [if_neg hheight] at hok ⊢
        dsimp only at hok ⊢
        rw [if_pos hok]
        exact ⟨_, List.find?_cons_of_pos (beq_self_eq_true _)⟩
    obtain ⟨p, hp'⟩ := hwait
    obtain ⟨qs, hqs, hlen⟩ := committed_of_replay
      (.committed (h.prepared b.hash b.height b.time b.txdata) hp') hpn hrest
    refine ⟨p :: qs, ?_, by rw [List.length_cons, List.length_cons, hlen]⟩
    rwa [List.append_assoc] at hqs

end

section

attribute [local instance] transferMachine sampleBitcoin

/-- No sample world holds code. -/
@[reducible] def sampleKeccak : Keccak where
  keccak256 _ := 0

attribute [local instance] sampleKeccak

/-- An empty block at height 1, in place of the deposit. -/
def otherFirst : EvmBlock := ⟨3, 1, 15, [sampleCoinbase 0 []]⟩

/-- A copy of the state at height 2, restored at the genesis. -/
def restoredSample : Option (EvmState × EvmState) :=
  (replay (EvmState.new sampleConfig) depositAndWithdraw).bind fun run =>
    ((EvmState.new sampleConfig).restore run.2.snapshot 0).toOption.map fun t => (run.2, t)

theorem restoredSample_eq {s t : EvmState} (h : restoredSample = some (s, t)) :
    (∃ ps, Committed sampleConfig ps s ∧ ps.length = 2) ∧
      (EvmState.new sampleConfig).restore s.snapshot 0 = .ok t := by
  obtain ⟨⟨vs, s'⟩, hrun, hrest⟩ := Option.bind_eq_some_iff.mp h
  obtain ⟨t', hok, heq⟩ := Option.map_eq_some_iff.mp hrest
  obtain ⟨rfl, rfl⟩ := Prod.mk.inj heq
  obtain ⟨qs, hqs, hlen⟩ := committed_of_replay .start rfl hrun
  refine ⟨⟨qs, hqs, hlen⟩, ?_⟩
  cases hr : (EvmState.new sampleConfig).restore s'.snapshot 0 with
  | error e =>
    rw [hr] at hok
    cases hok
  | ok t =>
    rw [hr] at hok
    exact congrArg Except.ok (Option.some.inj hok)

/-- The blocks above the genesis, and one more first block. -/
def keptSample : Bool := restoredSample.any fun p =>
  (p.2.blocks.lookup 2).isSome && (p.2.receipts.lookup 3).isSome &&
    (replay p.2 [otherFirst]).any fun run =>
      (run.2.blocks.lookup 2).isSome && (run.2.worlds.lookup 2).isSome &&
        (run.2.receipts.lookup 3).isSome

set_option maxRecDepth 100000 in
theorem keptSample_eq : keptSample = true := by decide +kernel

/-- Both blocks are forgotten by everything up to the genesis. -/
theorem restore_as_if_sample : ∃ (ps : List Pending) (s t : EvmState),
    Committed sampleConfig ps s ∧ ps.length = 2 ∧
    (EvmState.new sampleConfig).restore s.snapshot 0 = .ok t ∧
    AsIf 0 (carriedAfter 0 ps) t (EvmState.new sampleConfig) := by
  obtain ⟨⟨s, t⟩, hrun, -⟩ := (Option.any_eq_true _ _).mp keptSample_eq
  obtain ⟨⟨ps, hps, hlen⟩, hok⟩ := restoredSample_eq hrun
  exact ⟨ps, s, t, hps, hlen, hok, ((restore_as_if hps (r := EvmState.new sampleConfig) .start rfl
    (Nat.zero_le _)).2 t hok).1⟩

/-- **The abandoned blocks answer.** Restored at the genesis, the state still
has the second block's record and receipt, also after another first block. -/
theorem restore_keeps_above : ∃ (ps : List Pending) (s t : EvmState),
    Committed sampleConfig ps s ∧ ps.length = 2 ∧
    (EvmState.new sampleConfig).restore s.snapshot 0 = .ok t ∧
    ((t.blocks.lookup 2).isSome = true ∧ (t.receipts.lookup 3).isSome = true ∧
      (EvmState.new sampleConfig).blocks.lookup 2 = none ∧
      (EvmState.new sampleConfig).receipts.lookup 3 = none) ∧
    ∃ vs t', replay t [otherFirst] = some (vs, t') ∧ (t'.blocks.lookup 2).isSome = true ∧
      (t'.worlds.lookup 2).isSome = true ∧ (t'.receipts.lookup 3).isSome = true := by
  obtain ⟨⟨s, t⟩, hrun, hkept⟩ := (Option.any_eq_true _ _).mp keptSample_eq
  obtain ⟨⟨ps, hps, hlen⟩, hok⟩ := restoredSample_eq hrun
  simp only [Bool.and_eq_true] at hkept
  obtain ⟨⟨vs, t'⟩, hnext, hafter⟩ := (Option.any_eq_true _ _).mp hkept.2
  simp only [Bool.and_eq_true] at hafter
  exact ⟨ps, s, t, hps, hlen, hok, ⟨hkept.1.1, hkept.1.2, by decide, by decide⟩, vs, t', hnext,
    hafter.1.1, hafter.1.2, hafter.2⟩

end

end Evm

end Sidestr
