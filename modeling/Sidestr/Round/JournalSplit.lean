/-
# The combined journal split

Both rounds once wrote one file. A signer that starts on such a directory copies
the burns' entries to the peg-out journal, unless that file is there already;
but the file is there from the moment it is created, before the first entry is
copied. A crash in between leaves the rest of the entries behind for good.

Key definitions: `splitCombinedJournal`, `SplitStop`, `startPegouts`, `Whole`.
Key theorems: `restarts_pegouts`, `authorised_kept_iff`.
-/
import Sidestr.Round.Journal
import Sidestr.Round.PegoutVote

namespace Sidestr

namespace Round

/-- The journals' files. -/
structure JournalDir where
  journal : Option Bytes
  pegout : Option Bytes

/-- Where a start of the signer ends. -/
inductive SplitStop
  /-- Before the peg-out journal is created, the other one repaired or not. -/
  | early (repaired : Bool)
  /-- With so many entries copied, and so many bytes of the next. -/
  | copying (entries bytes : ℕ)
  /-- With the split done. -/
  | returned
  /-- With the split done and both journals open. -/
  | opened
  deriving DecidableEq

/-- A journal's port over its file, and how the disk ends the writes to come. -/
structure JournalFile where
  bytes : Bytes
  journal : FileJournal
  fates : List AppendFate

def VoteEntry.isBurn (e : VoteEntry) : Bool :=
  match e.scope with
  | .burn _ => true
  | .height _ => false

section

variable [EntryCodec]

@[reducible] def journalFile : VoteJournal JournalFile where
  record f e :=
    let after := f.journal.record f.bytes e (f.fates.headD .synced)
    (⟨after.1, after.2.1, f.fates.tail⟩, match after.2.2 with
      | .ok () => true
      | _ => false)
  entries f :=
    match f.journal.entries f.bytes with
    | .ok es => some es
    | _ => none

attribute [local instance] journalFile

/-- Record entries one by one. -/
def recordAll : List VoteEntry → Bytes × FileJournal → Bytes × FileJournal
  | [], f => f
  | e :: es, f =>
    let after := f.2.record f.1 e .synced
    recordAll es (after.1, after.2.1)

/-- Copy the burns' entries to a peg-out journal that is not there yet. -/
def splitCombinedJournal (stop : SplitStop) (d : JournalDir) : Res JournalError JournalDir :=
  match d.journal with
  | none => .ok d
  | some bytes =>
    if d.pegout.isSome then .ok d
    else if stop = .early false then .ok d
    else do
      let combined ← FileJournal.open bytes
      let entries ← combined.2.entries combined.1
      let d := { d with journal := some combined.1 }
      let burns := entries.filter VoteEntry.isBurn
      if burns = [] then .ok d
      else match stop with
        | .early _ => .ok d
        | .copying k n => do
          let split ← FileJournal.open []
          let copied := (recordAll (burns.take k) split).1
          let next := ((burns[k]?).map fun e => (FileJournal.appended e).take n).getD []
          .ok { d with pegout := some (copied ++ next) }
        | _ => do
          let split ← FileJournal.open []
          .ok { d with pegout := some (recordAll burns split).1 }

/-- The journal's file opened, and created when it is not there. -/
def openFile (file : Option Bytes) : Res JournalError (Bytes × FileJournal) :=
  FileJournal.open (file.getD [])

/-- A start of the signer that ends where the process dies. -/
def restart (d : JournalDir) (stop : SplitStop) : Res JournalError JournalDir := do
  let d ← splitCombinedJournal stop d
  if stop = .opened then do
    let journal ← openFile d.journal
    let pegout ← openFile d.pegout
    .ok ⟨some journal.1, some pegout.1⟩
  else .ok d

def restarts (d : JournalDir) : List SplitStop → Res JournalError JournalDir
  | [] => .ok d
  | stop :: stops => do
    let d ← restart d stop
    restarts d stops

/-! ### What a start leaves -/

/-- The start gets to create the peg-out journal. -/
def SplitStop.creates : SplitStop → Bool
  | .early _ => false
  | _ => true

/-- The entries that a start which creates the journal leaves whole in it. -/
def SplitStop.copied (burns : List VoteEntry) : SplitStop → List VoteEntry
  | .early _ => []
  | .copying k n =>
    burns.take k ++ ((burns[k]?).filter fun e => (EntryCodec.line e).length ≤ n).toList
  | _ => burns

/-- The file opens as these entries. -/
def Opens (bytes : Bytes) (es : List VoteEntry) : Prop :=
  ∃ j, FileJournal.open bytes = .ok (written es, j) ∧ j.poisoned = false

theorem Opens.written {es : List VoteEntry} (hes : ∀ e ∈ es, Readable e) :
    Opens (Round.written es) es :=
  ⟨_, open_closed hes, rfl⟩

/-- Entries recorded one by one are the file's last. -/
theorem recordAll_written : ∀ {es kept : List VoteEntry} {j : FileJournal}, j.poisoned = false →
    (recordAll es (written kept, j)).1 = written (kept ++ es)
  | [], kept, _, _ => by rw [List.append_nil]; rfl
  | e :: es, kept, j, hj => by
    have hrecord : j.record (written kept) e .synced = (written kept ++ FileJournal.appended e,
        { j with durableLen := (written kept).length + (FileJournal.appended e).length },
        .ok ()) := by
      rw [FileJournal.record, if_neg (by simp [hj])]
    rw [recordAll, hrecord, ← written_concat]
    refine (recordAll_written ?_).trans ?_
    · exact hj
    · rw [List.append_assoc]
      rfl

theorem open_nil : FileJournal.open [] = .ok ([], ⟨0, false⟩) := @open_closed _ [] (by simp)

theorem recordAll_nil (es : List VoteEntry) : (recordAll es ([], ⟨0, false⟩)).1 = written es :=
  @recordAll_written _ es [] ⟨0, false⟩ rfl

theorem opens_copying {burns : List VoteEntry} (hburns : ∀ e ∈ burns, Readable e) (k n : ℕ) :
    Opens (written (burns.take k) ++
        (((burns[k]?).map fun e => (FileJournal.appended e).take n).getD []))
      (SplitStop.copied burns (.copying k n)) := by
  have htake : ∀ e ∈ burns.take k, Readable e := fun e he => hburns e (List.mem_of_mem_take he)
  have hcopied : SplitStop.copied burns (.copying k n) = burns.take k ++
      ((burns[k]?).filter fun e => (EntryCodec.line e).length ≤ n).toList := rfl
  rw [hcopied]
  cases hnext : burns[k]? with
  | none =>
    rw [Option.map_none, Option.getD_none, List.append_nil, Option.filter_none, Option.toList_none,
      List.append_nil]
    exact .written htake
  | some e =>
    obtain ⟨j, hopen, hj⟩ := open_torn htake (hburns e (List.mem_of_getElem? hnext)) n
    refine ⟨j, ?_, hj⟩
    rw [Option.map_some, Option.getD_some, hopen]
    by_cases hn : (EntryCodec.line e).length ≤ n
    · rw [if_pos hn, Option.filter_some, if_pos (by simpa using hn), Option.toList_some]
    · rw [if_neg hn, Option.filter_some, if_neg (by simpa using hn), Option.toList_none,
        List.append_nil]

/-- The directory after some starts, the first of which that created the peg-out
journal is given: the combined journal is as it was, and the other one opens as
what that start left. -/
structure Phase (es : List VoteEntry) (first : Option SplitStop) (d : JournalDir) : Prop where
  combined : ∃ bytes, d.journal = some bytes ∧ Opens bytes es
  pegout : (d.pegout = none ∧ (first = none ∨ es.filter VoteEntry.isBurn = [])) ∨
    ∃ bytes stop, d.pegout = some bytes ∧ first = some stop ∧
      Opens bytes (stop.copied (es.filter VoteEntry.isBurn))

/-- The first start that creates the journal, with one more start. -/
def firstWith (first : Option SplitStop) (stop : SplitStop) : Option SplitStop :=
  first.or (if stop.creates then some stop else none)

theorem copied_nil (stop : SplitStop) : stop.copied [] = [] := by
  cases stop <;> simp [SplitStop.copied]

theorem splitCombinedJournal_phase {es : List VoteEntry} {first : Option SplitStop}
    {d : JournalDir} (hes : ∀ e ∈ es, Readable e) (h : Phase es first d) (stop : SplitStop) :
    ∃ d', splitCombinedJournal stop d = .ok d' ∧ Phase es (firstWith first stop) d' := by
  obtain ⟨bytes, hjournal, j, hopen, hj⟩ := h.combined
  unfold splitCombinedJournal
  rw [hjournal]
  dsimp only
  rcases h.pegout with ⟨hnone, hfirst⟩ | ⟨pegout, done, hsome, rfl, hopens⟩
  · rw [if_neg (by simp [hnone])]
    by_cases hearly : stop = .early false
    · rw [if_pos hearly, hearly]
      refine ⟨d, rfl, h.combined, .inl ⟨hnone, hfirst.imp ?_ id⟩⟩
      rintro rfl
      rfl
    · rw [if_neg hearly, hopen, Res.ok_bind, entries_closed hes hj, Res.ok_bind]
      have hcombined : ∃ b, some (written es) = some b ∧ Opens b es := ⟨_, rfl, .written hes⟩
      by_cases hburns : es.filter VoteEntry.isBurn = []
      · rw [if_pos hburns]
        exact ⟨_, rfl, hcombined, .inl ⟨hnone, .inr hburns⟩⟩
      · rw [if_neg hburns]
        obtain rfl : first = none := hfirst.resolve_right hburns
        have hreadable : ∀ e ∈ es.filter VoteEntry.isBurn, Readable e :=
          fun e he => hes e (List.mem_of_mem_filter he)
        have htake : ∀ k, ∀ e ∈ (es.filter VoteEntry.isBurn).take k, Readable e :=
          fun k e he => hreadable e (List.mem_of_mem_take he)
        cases stop with
        | early _ => exact ⟨_, rfl, hcombined, .inl ⟨hnone, .inl rfl⟩⟩
        | copying k n =>
          dsimp only
          rw [open_nil, Res.ok_bind, recordAll_nil]
          exact ⟨_, rfl, hcombined, .inr ⟨_, _, rfl, rfl, opens_copying hreadable k n⟩⟩
        | returned =>
          dsimp only
          rw [open_nil, Res.ok_bind, recordAll_nil]
          exact ⟨_, rfl, hcombined, .inr ⟨_, _, rfl, rfl, .written hreadable⟩⟩
        | opened =>
          dsimp only
          rw [open_nil, Res.ok_bind, recordAll_nil]
          exact ⟨_, rfl, hcombined, .inr ⟨_, _, rfl, rfl, .written hreadable⟩⟩
  · rw [if_pos (by simp [hsome])]
    exact ⟨d, rfl, h.combined, .inr ⟨pegout, done, hsome, rfl, hopens⟩⟩

theorem copied_readable {burns : List VoteEntry} (hburns : ∀ e ∈ burns, Readable e)
    (stop : SplitStop) : ∀ e ∈ stop.copied burns, Readable e := by
  intro e he
  cases stop with
  | early _ => cases he
  | copying k n =>
    rcases List.mem_append.mp he with h | h
    · exact hburns e (List.mem_of_mem_take h)
    · obtain ⟨hnext, -⟩ := Option.filter_eq_some_iff.mp (Option.mem_toList.mp h)
      exact hburns e (List.mem_of_getElem? hnext)
  | returned => exact hburns e he
  | opened => exact hburns e he

/-- The journal that the peg-out round gets opens as what was copied. -/
theorem Phase.openFile {es : List VoteEntry} {first : Option SplitStop} {d : JournalDir}
    {stop : SplitStop} (h : Phase es (firstWith first stop) d) (hstop : stop.creates = true) :
    ∃ done j, firstWith first stop = some done ∧
      Round.openFile d.pegout = .ok (written (done.copied (es.filter VoteEntry.isBurn)), j) ∧
      j.poisoned = false := by
  obtain ⟨done, hdone⟩ : ∃ done, firstWith first stop = some done := by
    unfold firstWith
    rw [if_pos hstop]
    cases first with
    | none => exact ⟨stop, rfl⟩
    | some done => exact ⟨done, rfl⟩
  refine ⟨done, ?_⟩
  rcases h.pegout with ⟨hnone, hfirst⟩ | ⟨bytes, done', hsome, hfirst, j, hopen, hj⟩
  · refine ⟨⟨0, false⟩, hdone, ?_, rfl⟩
    rw [hdone] at hfirst
    rw [hfirst.resolve_left (by simp), copied_nil, hnone]
    exact open_nil
  · rw [hdone] at hfirst
    obtain rfl := Option.some.inj hfirst
    exact ⟨j, hdone, by rw [hsome]; exact hopen, hj⟩

theorem restart_phase {es : List VoteEntry} {first : Option SplitStop} {d : JournalDir}
    (hes : ∀ e ∈ es, Readable e) (h : Phase es first d) (stop : SplitStop) :
    ∃ d', restart d stop = .ok d' ∧ Phase es (firstWith first stop) d' := by
  obtain ⟨d', hsplit, hphase⟩ := splitCombinedJournal_phase hes h stop
  unfold restart
  rw [hsplit, Res.ok_bind]
  by_cases hopened : stop = .opened
  · rw [if_pos hopened]
    obtain ⟨bytes, hjournal, j, hopen, hj⟩ := hphase.combined
    obtain ⟨done, j', hdone, hopen', hj'⟩ := hphase.openFile (by rw [hopened]; rfl)
    rw [hjournal, show openFile (some bytes) = _ from hopen, Res.ok_bind, hopen', Res.ok_bind]
    refine ⟨_, rfl, ⟨_, rfl, .written hes⟩, .inr ⟨_, done, rfl, hdone, .written ?_⟩⟩
    exact copied_readable (fun e he => hes e (List.mem_of_mem_filter he)) done
  · rw [if_neg hopened]
    exact ⟨d', rfl, hphase⟩

theorem restarts_phase {es : List VoteEntry} (hes : ∀ e ∈ es, Readable e) :
    ∀ (stops : List SplitStop) {first : Option SplitStop} {d : JournalDir}, Phase es first d →
      ∃ d', restarts d stops = .ok d' ∧ Phase es (first.or (stops.find? SplitStop.creates)) d'
  | [], first, d, h => ⟨d, rfl, by simpa using h⟩
  | stop :: stops, first, d, h => by
    obtain ⟨d', hrestart, hphase⟩ := restart_phase hes h stop
    obtain ⟨d'', hrestarts, hphase'⟩ := restarts_phase hes stops hphase
    refine ⟨d'', by rw [restarts, hrestart, Res.ok_bind, hrestarts], ?_⟩
    have hfind : (firstWith first stop).or (stops.find? SplitStop.creates) =
        first.or ((stop :: stops).find? SplitStop.creates) := by
      unfold firstWith
      cases first <;> by_cases hc : stop.creates = true <;> simp [hc]
    rwa [← hfind]

variable {S : Type} [RoundSigner S]

/-- A start that gets to the peg-out round: the split, and the round on its journal. -/
def startPegouts (fed : Federation) (chainId : Bytes) (custody : Custody S) (cfg : PegoutConfig)
    (ledger : PegoutLedger) (d : JournalDir) : Res JournalError (PegoutRound S JournalFile) := do
  let d ← splitCombinedJournal .returned d
  let pegout ← openFile d.pegout
  Res.okOr .poisoned (PegoutRound.new fed chainId custody ⟨pegout.1, pegout.2, []⟩ cfg ledger)

omit [RoundSigner S] in
theorem journalFile_entries {es : List VoteEntry} (hes : ∀ e ∈ es, Readable e) {j : FileJournal}
    (hj : j.poisoned = false) :
    VoteJournal.entries (⟨written es, j, []⟩ : JournalFile) = some es := by
  unfold VoteJournal.entries journalFile
  dsimp only
  rw [entries_closed hes hj]

omit [EntryCodec] [RoundSigner S] in
/-- Every burn in the guard loaded from a journal is one of its entries'. -/
theorem of_mem_foldl_guardEntry {key : BurnKey} : ∀ {es : List VoteEntry} {guard : Map BurnKey ℕ},
    key ∈ es.foldl PegoutRound.guardEntry guard → key ∈ guard ∨ ∃ e ∈ es, e.scope = .burn key
  | [], _, h => .inl h
  | e :: es, guard, h => by
    rw [List.foldl_cons] at h
    rcases of_mem_foldl_guardEntry h with h | ⟨e', he', hscope⟩
    · unfold PegoutRound.guardEntry at h
      cases hscope : e.scope with
      | height _ =>
        rw [hscope] at h
        exact .inl h
      | burn b =>
        rw [hscope] at h
        rcases Finmap.mem_insert.mp h with rfl | h
        · exact .inr ⟨e, List.mem_cons_self, hscope⟩
        · exact .inl h
    · exact .inr ⟨e', List.mem_cons_of_mem e he', hscope⟩

omit [EntryCodec] [RoundSigner S] in
theorem mem_authorised {key : BurnKey} {es : List VoteEntry} :
    key ∈ es.foldl PegoutRound.guardEntry ∅ ↔ ∃ e ∈ es, e.scope = .burn key :=
  ⟨fun h => (of_mem_foldl_guardEntry h).resolve_left Finmap.notMem_empty,
    fun h => mem_foldl_guardEntry (.inr h)⟩

omit [EntryCodec] in
theorem new_authorised {J : Type} [VoteJournal J] {journal : J} {es : List VoteEntry}
    (h : VoteJournal.entries journal = some es) (fed : Federation) (chainId : Bytes)
    (custody : Custody S) (cfg : PegoutConfig) (ledger : PegoutLedger)
    (hme : RoundSigner.pubkey custody.signer ∈ fed.signers) :
    ∃ r, PegoutRound.new fed chainId custody journal cfg ledger = some r ∧
      r.authorised = es.foldl PegoutRound.guardEntry ∅ := by
  unfold PegoutRound.new
  rw [h]
  dsimp only
  rw [if_neg (by simpa using hme)]
  exact ⟨_, rfl, rfl⟩

/-- What the starts leave whole in the peg-out journal: all of it, when none has
created the journal yet. -/
def survivors (es : List VoteEntry) (stops : List SplitStop) : List VoteEntry :=
  ((stops.find? SplitStop.creates).getD .returned).copied (es.filter VoteEntry.isBurn)

/-- Whatever starts end where, the next one gets to the peg-out round, whose
guard is of the entries left whole. -/
theorem start_authorised {disk : JournalDisk} (hrun : JournalRun disk) {bytes : Bytes}
    {j : FileJournal} {es : List VoteEntry} (hopen : FileJournal.open disk.bytes = .ok (bytes, j))
    (hread : j.entries bytes = .ok es) (stops : List SplitStop) (fed : Federation)
    (chainId : Bytes) (custody : Custody S) (cfg : PegoutConfig) (ledger : PegoutLedger)
    (hme : RoundSigner.pubkey custody.signer ∈ fed.signers) :
    ∃ d r, restarts ⟨some disk.bytes, none⟩ stops = .ok d ∧
      startPegouts fed chainId custody cfg ledger d = .ok r ∧
      r.authorised = (survivors es stops).foldl PegoutRound.guardEntry ∅ := by
  obtain ⟨es', j', hopen', hj, hes, -⟩ := hrun.sound.opens
  rw [hopen'] at hopen
  obtain ⟨rfl, rfl⟩ := Prod.mk.inj (Res.ok.inj hopen)
  rw [entries_closed hes hj] at hread
  obtain rfl := Res.ok.inj hread
  have hstart : Phase es' none ⟨some disk.bytes, none⟩ :=
    ⟨⟨_, rfl, _, hopen', hj⟩, .inl ⟨rfl, .inl rfl⟩⟩
  obtain ⟨d, hrestarts, hphase⟩ := restarts_phase hes stops hstart
  obtain ⟨d', hsplit, hphase'⟩ := splitCombinedJournal_phase hes hphase .returned
  obtain ⟨done, k, hdone, hfile, hk⟩ := hphase'.openFile rfl
  have hfirst : done = (stops.find? SplitStop.creates).getD .returned := by
    refine Option.some.inj (hdone.symm.trans ?_)
    unfold firstWith
    cases stops.find? SplitStop.creates <;> rfl
  have hburns : ∀ e ∈ es'.filter VoteEntry.isBurn, Readable e :=
    fun e he => hes e (List.mem_of_mem_filter he)
  have hentries := journalFile_entries (copied_readable hburns done) hk
  obtain ⟨r, hnew, hauthorised⟩ := new_authorised hentries fed chainId custody cfg ledger hme
  refine ⟨d, r, hrestarts, ?_, ?_⟩
  · unfold startPegouts
    rw [hsplit, Res.ok_bind, hfile, Res.ok_bind, hnew]
    rfl
  · rw [hauthorised, hfirst]
    rfl

/-- The first start that creates the peg-out journal leaves whole an entry of
every burn of the combined one. -/
def Whole (es : List VoteEntry) (stops : List SplitStop) : Prop :=
  ∀ e ∈ es.filter VoteEntry.isBurn, ∃ e' ∈ survivors es stops, e'.scope = e.scope

omit [RoundSigner S] in
theorem whole_iff {es : List VoteEntry} {stops : List SplitStop} :
    (∀ e ∈ es, ∀ key, e.scope = .burn key →
      key ∈ (survivors es stops).foldl PegoutRound.guardEntry ∅) ↔ Whole es stops := by
  unfold Whole
  simp only [mem_authorised, List.mem_filter]
  constructor
  · rintro hall e ⟨hmem, hburn⟩
    cases hscope : e.scope with
    | height _ =>
      unfold VoteEntry.isBurn at hburn
      rw [hscope] at hburn
      cases hburn
    | burn key => exact hall e hmem key hscope
  · intro hwhole e he key hscope
    have hburn : e.isBurn = true := by
      unfold VoteEntry.isBurn
      rw [hscope]
    obtain ⟨e', he', hsame⟩ := hwhole e ⟨he, hburn⟩
    exact ⟨e', he', hsame.trans hscope⟩

/-- **When the split loses no authorisation.** Whatever starts end where, the
next one has every burn of the combined journal in its guard if and only if the
first that created the peg-out journal left whole an entry of each. -/
theorem authorised_kept_iff {disk : JournalDisk} (hrun : JournalRun disk) {bytes : Bytes}
    {j : FileJournal} {es : List VoteEntry} (hopen : FileJournal.open disk.bytes = .ok (bytes, j))
    (hread : j.entries bytes = .ok es) (stops : List SplitStop) (fed : Federation)
    (chainId : Bytes) (custody : Custody S) (cfg : PegoutConfig) (ledger : PegoutLedger)
    (hme : RoundSigner.pubkey custody.signer ∈ fed.signers) :
    ∃ d r, restarts ⟨some disk.bytes, none⟩ stops = .ok d ∧
      startPegouts fed chainId custody cfg ledger d = .ok r ∧
      ((∀ e ∈ es, ∀ key, e.scope = .burn key → key ∈ r.authorised) ↔ Whole es stops) := by
  obtain ⟨d, r, hrestarts, hstart, hauthorised⟩ :=
    start_authorised hrun hopen hread stops fed chainId custody cfg ledger hme
  refine ⟨d, r, hrestarts, hstart, ?_⟩
  rw [hauthorised]
  exact whole_iff

end

section

attribute [local instance] sampleBitcoin keySigner journalFile

/-- A vote for a burn. -/
def burnVote (vout : ℕ) : VoteEntry :=
  ⟨.burn (1, vout), .signed, ascii ['c', 'd'], 2, 1790000000000, .intent, none⟩

@[reducible] def threeVotes : EntryCodec :=
  sampleEntryCodec [sampleVote 1, burnVote 0, burnVote 1]

attribute [local instance] threeVotes

def combinedVotes : List VoteEntry := [sampleVote 1, burnVote 0, burnVote 1]

/-- The codec tells the three votes, and a start that dies after one burn leaves it. -/
theorem combinedVotes_read : (∀ e ∈ combinedVotes, Told combinedVotes e) ∧
    survivors combinedVotes [.copying 1 0] = [burnVote 0] := by
  decide +kernel

theorem combinedVotes_readable : ∀ e ∈ combinedVotes, Readable e :=
  fun e he => sampleReadable (combinedVotes_read.1 e he)

/-- A start that dies with one of the two burns copied: the other one is not in
the next start's guard. -/
theorem burn_forgotten : ¬ ∀ (disk : JournalDisk), JournalRun disk →
    ∀ bytes j es, FileJournal.open disk.bytes = .ok (bytes, j) → j.entries bytes = .ok es →
      ∀ (stops : List SplitStop) (d : JournalDir) (r : PegoutRound SecretKey JournalFile),
        restarts ⟨some disk.bytes, none⟩ stops = .ok d →
        startPegouts sampleSigners (ascii ['d']) ⟨1, []⟩ sampleConfig ⟨∅⟩ d = .ok r →
          ∀ e ∈ es, ∀ key, e.scope = .burn key → key ∈ r.authorised := by
  intro hall
  have hrun := JournalRun.recording combinedVotes_readable
  have hopen := open_closed combinedVotes_readable
  have hread := entries_closed combinedVotes_readable (j := ⟨(written combinedVotes).length, false⟩) rfl
  obtain ⟨d, r, hrestarts, hstart, hauthorised⟩ := start_authorised hrun hopen hread
    [.copying 1 0] sampleSigners (ascii ['d']) ⟨1, []⟩ sampleConfig ⟨∅⟩ (by decide)
  have hkept := hall _ hrun _ _ _ hopen hread _ d r hrestarts hstart (burnVote 1)
    (by simp [combinedVotes]) (1, 1) rfl
  rw [hauthorised, mem_authorised] at hkept
  obtain ⟨e, he, hscope⟩ := hkept
  rw [combinedVotes_read.2, List.mem_singleton] at he
  rw [he] at hscope
  exact absurd hscope (by decide)

theorem authorised_kept_iff_sample : ∃ d r,
    restarts ⟨some (written combinedVotes), none⟩ [.early true, .copying 2 0] = .ok d ∧
      startPegouts sampleSigners (ascii ['d']) (⟨1, []⟩ : Custody SecretKey) sampleConfig ⟨∅⟩ d =
        .ok r ∧
      ∀ e ∈ combinedVotes, ∀ key, e.scope = .burn key → key ∈ r.authorised := by
  have hread := entries_closed combinedVotes_readable (j := ⟨(written combinedVotes).length, false⟩) rfl
  obtain ⟨d, r, hrestarts, hstart, hkept⟩ := authorised_kept_iff
    (JournalRun.recording combinedVotes_readable) (open_closed combinedVotes_readable) hread
    [.early true, .copying 2 0] sampleSigners (ascii ['d']) (⟨1, []⟩ : Custody SecretKey) sampleConfig
    ⟨∅⟩ (by decide)
  refine ⟨d, r, hrestarts, hstart, hkept.mpr ?_⟩
  unfold Whole
  decide

end

end Round

end Sidestr
