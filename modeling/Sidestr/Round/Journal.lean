/-
# The journal file

A file of JSON lines, one vote in each, synced after every write. Opening it
reads every line, and repairs what a crash may have left after the last one: a
whole entry that lost its newline is closed, a part of one is cut off. A write
that fails is cut back, and when that fails too the journal takes no more.

The disk decides how a write ends. A run is any sequence of opens, records and
crashes, and the state keeps what was read and acknowledged beside the bytes.

Key definitions: `parse`, `FileJournal.open`, `FileJournal.record`, `JournalRun`.
Key theorems: `Sound.step`, `journal_survives`.
-/
import Sidestr.Lib.Lines
import Sidestr.Lib.Outcome
import Sidestr.Round.Pegout

namespace Sidestr

namespace Round

/-- The JSON of an entry, and its reader. -/
class EntryCodec where
  line : VoteEntry → Bytes
  read : Bytes → Option VoteEntry

/-- Why the journal refuses. -/
inductive JournalError
  /-- A closed line, counted from one, is no entry. -/
  | line (no : ℕ)
  /-- An append failed, and this one was cut back or stuck. -/
  | append
  | poisoned
  /-- An unterminated record starts here: reopen the journal to repair it. -/
  | unterminated (start : ℕ)
  deriving DecidableEq

def newline : UInt8 := 0x0a

/-- The entries of a file, and the unterminated suffix if there is one: where it
starts, and the entry it is. -/
structure Parsed where
  entries : List VoteEntry
  durableLen : ℕ
  torn : Option (ℕ × Option VoteEntry)

/-- A live handle. -/
structure FileJournal where
  /-- Bytes up to the last record boundary. -/
  durableLen : ℕ
  /-- A failed append could not be rolled back. -/
  poisoned : Bool
  deriving DecidableEq

/-- What the disk does with an append: all of it synced, or an error after so
many bytes, which are cut off again or not. -/
inductive AppendFate
  | synced
  | failed (written : ℕ) (rolled : Bool)

section

variable [EntryCodec]

/-- A closed line: an entry, a blank, or an error. -/
def readLine (no : ℕ) (line : Bytes) : Res JournalError (Option VoteEntry) :=
  if !utf8Valid line then .err (.line no)
  else if trim line = [] then .ok none
  else match EntryCodec.read line with
    | none => .err (.line no)
    | some e => .ok (some e)

def readLines : ℕ → List Bytes → Res JournalError (List VoteEntry)
  | _, [] => .ok []
  | no, line :: lines => do
    let e ← readLine no line
    let entries ← readLines (no + 1) lines
    .ok (e.toList ++ entries)

/-- The entry an unterminated suffix is. -/
def readTorn (rest : Bytes) : Option VoteEntry :=
  if utf8Valid rest then EntryCodec.read rest else none

def parse (bytes : Bytes) : Res JournalError Parsed := do
  let entries ← readLines 1 (Lines.lines newline bytes)
  let rest := Lines.rest newline bytes
  let start := bytes.length - rest.length
  .ok ⟨entries, start, if rest = [] then none else some (start, readTorn rest)⟩

namespace FileJournal

/-- Open the file: it is validated, and a torn tail repaired. -/
def «open» (bytes : Bytes) : Res JournalError (Bytes × FileJournal) := do
  let parsed ← parse bytes
  match parsed.torn with
  | none => .ok (bytes, ⟨parsed.durableLen, false⟩)
  -- a whole entry that lost only its newline
  | some (_, some _) => .ok (bytes ++ [newline], ⟨bytes.length + 1, false⟩)
  | some (start, none) => .ok (bytes.take start, ⟨start, false⟩)

/-- What an entry is appended as. -/
def appended (e : VoteEntry) : Bytes := EntryCodec.line e ++ [newline]

/-- Append an entry at the length that the file has now. -/
def record (j : FileJournal) (bytes : Bytes) (e : VoteEntry) (fate : AppendFate) :
    Bytes × FileJournal × Res JournalError Unit :=
  if j.poisoned then (bytes, j, .err .poisoned)
  else match fate with
    | .synced =>
      (bytes ++ appended e, { j with durableLen := bytes.length + (appended e).length }, .ok ())
    | .failed n rolled =>
      let written := bytes ++ (appended e).take n
      if rolled then (written.take bytes.length, j, .err .append)
      else (written, { j with poisoned := true }, .err .append)

def entries (j : FileJournal) (bytes : Bytes) : Res JournalError (List VoteEntry) :=
  if j.poisoned then .err .poisoned
  else do
    let parsed ← parse bytes
    match parsed.torn with
    | some (start, _) => .err (.unterminated start)
    | none => .ok parsed.entries

end FileJournal

/-- What is relied on of an entry's JSON: it is one line of text that reads back,
and no part of it is an entry. -/
structure Readable (e : VoteEntry) : Prop where
  oneLine : newline ∉ EntryCodec.line e
  text : utf8Valid (EntryCodec.line e) = true
  shown : trim (EntryCodec.line e) ≠ []
  reads : EntryCodec.read (EntryCodec.line e) = some e
  whole : ∀ n < (EntryCodec.line e).length, EntryCodec.read ((EntryCodec.line e).take n) = none

/-! ### Runs -/

/-- The file and its live handle, and what happened to it: the entries read when
it was last opened, those acknowledged since, all that ever were, and the one
whose write did not end. -/
structure JournalDisk where
  bytes : Bytes
  handle : Option FileJournal
  opened : List VoteEntry
  acked : List VoteEntry
  everAcked : List VoteEntry
  inFlight : Option VoteEntry

namespace JournalDisk

/-- A file that is not there yet. -/
def fresh : JournalDisk := ⟨[], none, [], [], [], none⟩

/-- A record on a live handle; one that leaves bytes behind is in flight. -/
def record (d : JournalDisk) (j : FileJournal) (e : VoteEntry) (fate : AppendFate) : JournalDisk :=
  let after := j.record d.bytes e fate
  match after.2.2 with
  | .ok () => { d with bytes := after.1, handle := some after.2.1, acked := d.acked ++ [e],
                       everAcked := d.everAcked ++ [e] }
  | _ => { d with bytes := after.1, handle := some after.2.1,
                  inFlight := if after.1 = d.bytes then d.inFlight else some e }

/-- The process dies with so many bytes of the record in the file. -/
def dieIn (d : JournalDisk) (e : VoteEntry) (n : ℕ) : JournalDisk :=
  { d with bytes := d.bytes ++ (FileJournal.appended e).take n, handle := none, inFlight := some e }

end JournalDisk

/-- A step of a run: an open, a record however it ends, or a crash. -/
inductive JournalStep : JournalDisk → JournalDisk → Prop
  | opened {d : JournalDisk} {bytes : Bytes} {j : FileJournal} {es : List VoteEntry}
      (hdead : d.handle = none) (hopen : FileJournal.open d.bytes = .ok (bytes, j))
      (hread : j.entries bytes = .ok es) :
      JournalStep d ⟨bytes, some j, es, [], d.everAcked, none⟩
  | recorded {d : JournalDisk} {j : FileJournal} {e : VoteEntry} (hlive : d.handle = some j)
      (he : Readable e) (fate : AppendFate) : JournalStep d (d.record j e fate)
  | crashed {d : JournalDisk} : JournalStep d { d with handle := none }
  | crashedIn {d : JournalDisk} {j : FileJournal} {e : VoteEntry} (hlive : d.handle = some j)
      (hclean : j.poisoned = false) (he : Readable e) (n : ℕ) : JournalStep d (d.dieIn e n)

inductive JournalRun : JournalDisk → Prop
  | fresh : JournalRun .fresh
  | step {d d' : JournalDisk} (h : JournalRun d) (hstep : JournalStep d d') : JournalRun d'

/-! ### What a file reads as -/

/-- The file of some entries. -/
def written (es : List VoteEntry) : Bytes := Lines.closed newline (es.map EntryCodec.line)

theorem written_concat (es : List VoteEntry) (e : VoteEntry) :
    written (es ++ [e]) = written es ++ FileJournal.appended e := by
  unfold written
  rw [List.map_append, List.map_singleton, Lines.closed_concat]
  rfl

theorem readLine_line {e : VoteEntry} (he : Readable e) (no : ℕ) :
    readLine no (EntryCodec.line e) = .ok (some e) := by
  unfold readLine
  rw [he.text, Bool.not_true, if_neg Bool.false_ne_true, if_neg he.shown, he.reads]

theorem readLines_lines : ∀ {es : List VoteEntry} (no : ℕ), (∀ e ∈ es, Readable e) →
    readLines no (es.map EntryCodec.line) = .ok es
  | [], _, _ => rfl
  | e :: es, no, hes => by
    have he : Readable e := hes e List.mem_cons_self
    have ih := readLines_lines (no + 1) fun e' h => hes e' (List.mem_cons_of_mem e h)
    rw [List.map_cons, readLines, readLine_line he, Res.ok_bind, ih, Res.ok_bind]
    rfl

/-- Closed entries before an unterminated suffix. -/
theorem parse_written {es : List VoteEntry} {rest : Bytes} (hes : ∀ e ∈ es, Readable e)
    (hrest : newline ∉ rest) :
    parse (written es ++ rest) = .ok ⟨es, (written es).length,
      if rest = [] then none else some ((written es).length, readTorn rest)⟩ := by
  have hlines : ∀ l ∈ es.map EntryCodec.line, newline ∉ l := by
    intro l hl
    obtain ⟨e, he, rfl⟩ := List.mem_map.mp hl
    exact (hes e he).oneLine
  have hlen : (written es ++ rest).length - rest.length = (written es).length := by simp
  unfold parse
  rw [show Lines.lines newline (written es ++ rest) = es.map EntryCodec.line from
      Lines.lines_closed hlines hrest,
    show Lines.rest newline (written es ++ rest) = rest from Lines.rest_closed hlines hrest,
    readLines_lines 1 hes, Res.ok_bind]
  dsimp only
  rw [hlen]

theorem parse_closed {es : List VoteEntry} (hes : ∀ e ∈ es, Readable e) :
    parse (written es) = .ok ⟨es, (written es).length, none⟩ := by
  have hnone : newline ∉ ([] : Bytes) := List.not_mem_nil
  have h := parse_written hes hnone
  rwa [List.append_nil, if_pos rfl] at h

theorem open_closed {es : List VoteEntry} (hes : ∀ e ∈ es, Readable e) :
    FileJournal.open (written es) = .ok (written es, ⟨(written es).length, false⟩) := by
  unfold FileJournal.open
  rw [parse_closed hes, Res.ok_bind]

theorem entries_closed {es : List VoteEntry} (hes : ∀ e ∈ es, Readable e) {j : FileJournal}
    (hj : j.poisoned = false) : j.entries (written es) = .ok es := by
  unfold FileJournal.entries
  rw [hj, if_neg Bool.false_ne_true, parse_closed hes, Res.ok_bind]

theorem readTorn_line {e : VoteEntry} (he : Readable e) :
    readTorn (EntryCodec.line e) = some e := by
  unfold readTorn
  rw [if_pos he.text, he.reads]

theorem readTorn_part {e : VoteEntry} (he : Readable e) {n : ℕ}
    (hn : n < (EntryCodec.line e).length) :
    readTorn ((EntryCodec.line e).take n) = none := by
  unfold readTorn
  rw [he.whole n hn, ite_self]

theorem Readable.line_ne_nil {e : VoteEntry} (he : Readable e) : EntryCodec.line e ≠ [] := by
  intro h
  refine he.shown ?_
  rw [h]
  rfl

theorem readable_concat {es : List VoteEntry} {e : VoteEntry} (hes : ∀ e' ∈ es, Readable e')
    (he : Readable e) : ∀ e' ∈ es ++ [e], Readable e' := by
  intro e' he'
  rcases List.mem_append.mp he' with h | h
  · exact hes e' h
  · rwa [List.mem_singleton.mp h]

/-- **A torn tail is repaired.** After a part of a record, the file opens as the
entries before it, or as these and the record when only its newline is missing. -/
theorem open_torn {es : List VoteEntry} {e : VoteEntry} (hes : ∀ e' ∈ es, Readable e')
    (he : Readable e) (n : ℕ) :
    ∃ j, FileJournal.open (written es ++ (FileJournal.appended e).take n) =
        .ok (written (if (EntryCodec.line e).length ≤ n then es ++ [e] else es), j) ∧
      j.poisoned = false := by
  rcases Lines.take_closed_cases newline (EntryCodec.line e) n with ⟨hn, hall⟩ | ⟨hn, hpart⟩
  · rw [if_pos hn.le]
    refine ⟨⟨(written (es ++ [e])).length, false⟩, ?_, rfl⟩
    rw [FileJournal.appended, hall, ← FileJournal.appended, ← written_concat]
    exact open_closed (readable_concat hes he)
  rw [FileJournal.appended, hpart]
  have hrest : newline ∉ (EntryCodec.line e).take n := fun h => he.oneLine (List.mem_of_mem_take h)
  rcases hn.lt_or_eq with hlt | heq
  · rw [if_neg (by omega)]
    refine ⟨⟨(written es).length, false⟩, ?_, rfl⟩
    by_cases hnil : (EntryCodec.line e).take n = []
    · rw [hnil, List.append_nil]
      exact open_closed hes
    · unfold FileJournal.open
      rw [parse_written hes hrest, Res.ok_bind, if_neg hnil, readTorn_part he hlt]
      simp only [List.take_left]
  · rw [heq, List.take_length] at hrest ⊢
    rw [if_pos le_rfl]
    refine ⟨⟨(written es ++ EntryCodec.line e).length + 1, false⟩, ?_, rfl⟩
    unfold FileJournal.open
    rw [parse_written hes hrest, Res.ok_bind, if_neg he.line_ne_nil, readTorn_line he,
      written_concat, FileJournal.appended, List.append_assoc]

/-! ### What a run leaves -/

/-- The file is what was read and acknowledged, and a part of the record whose
write did not end; a handle that takes records stands at a boundary. -/
structure Sound (d : JournalDisk) : Prop where
  readable : ∀ e ∈ d.opened ++ d.acked, Readable e
  bytes : (d.inFlight = none ∧ d.bytes = written (d.opened ++ d.acked)) ∨
    ∃ e n, d.inFlight = some e ∧ Readable e ∧
      d.bytes = written (d.opened ++ d.acked) ++ (FileJournal.appended e).take n
  boundary : ∀ j, d.handle = some j → j.poisoned = false → d.inFlight = none
  kept : d.everAcked.Sublist (d.opened ++ d.acked)

theorem Sound.fresh : Sound .fresh :=
  ⟨fun _ h => absurd h List.not_mem_nil, .inl ⟨rfl, rfl⟩, fun _ h => absurd h (by simp [JournalDisk.fresh]),
    List.Sublist.refl _⟩

/-- The file opens, and reads as what was there and at most the record in flight. -/
theorem Sound.opens {d : JournalDisk} (h : Sound d) :
    ∃ es j, FileJournal.open d.bytes = .ok (written es, j) ∧ j.poisoned = false ∧
      (∀ e ∈ es, Readable e) ∧
      (es = d.opened ++ d.acked ∨ ∃ e, d.inFlight = some e ∧ es = d.opened ++ d.acked ++ [e]) := by
  rcases h.bytes with ⟨-, hbytes⟩ | ⟨e, n, hflight, he, hbytes⟩
  · exact ⟨_, _, by rw [hbytes, open_closed h.readable], rfl, h.readable, .inl rfl⟩
  · obtain ⟨j, hopen, hj⟩ := open_torn h.readable he n
    refine ⟨_, j, by rw [hbytes, hopen], hj, ?_⟩
    by_cases hn : (EntryCodec.line e).length ≤ n
    · rw [if_pos hn]
      exact ⟨readable_concat h.readable he, .inr ⟨e, hflight, rfl⟩⟩
    · rw [if_neg hn]
      exact ⟨h.readable, .inl rfl⟩

theorem Sound.opened {d : JournalDisk} {bytes : Bytes} {j : FileJournal} {es : List VoteEntry}
    (h : Sound d) (hopen : FileJournal.open d.bytes = .ok (bytes, j))
    (hread : j.entries bytes = .ok es) : Sound ⟨bytes, some j, es, [], d.everAcked, none⟩ := by
  obtain ⟨es', j', hopen', hj, hes, hcases⟩ := h.opens
  rw [hopen'] at hopen
  obtain ⟨rfl, rfl⟩ := Prod.mk.inj (Res.ok.inj hopen)
  rw [entries_closed hes hj] at hread
  obtain rfl := Res.ok.inj hread
  refine ⟨by simpa using hes, .inl ⟨rfl, by simp⟩, fun _ _ _ => rfl, ?_⟩
  rw [List.append_nil]
  rcases hcases with rfl | ⟨e, -, rfl⟩
  · exact h.kept
  · exact h.kept.trans (List.sublist_append_left _ _)

theorem FileJournal.record_poisoned {j : FileJournal} (hj : j.poisoned = true) (bytes : Bytes)
    (e : VoteEntry) (fate : AppendFate) : j.record bytes e fate = (bytes, j, .err .poisoned) := by
  unfold record
  rw [if_pos hj]

theorem FileJournal.record_rolled {j : FileJournal} (hj : ¬ j.poisoned = true) (bytes : Bytes)
    (e : VoteEntry) (n : ℕ) : j.record bytes e (.failed n true) = (bytes, j, .err .append) := by
  unfold record
  rw [if_neg hj]
  simp only [if_pos, List.take_left]

theorem JournalDisk.record_unchanged {d : JournalDisk} {j : FileJournal} {e : VoteEntry}
    {fate : AppendFate} {why : JournalError} (h : j.record d.bytes e fate = (d.bytes, j, .err why)) :
    d.record j e fate = { d with handle := some j } := by
  unfold record
  rw [h]
  simp

theorem Sound.live {d : JournalDisk} {j : FileJournal} (h : Sound d) (hlive : d.handle = some j) :
    Sound { d with handle := some j } := by
  rwa [← hlive]

theorem Sound.recorded {d : JournalDisk} {j : FileJournal} {e : VoteEntry} (h : Sound d)
    (hlive : d.handle = some j) (he : Readable e) (fate : AppendFate) :
    Sound (d.record j e fate) := by
  by_cases hj : j.poisoned = true
  · rw [JournalDisk.record_unchanged (FileJournal.record_poisoned hj ..)]
    exact h.live hlive
  have hflight := h.boundary j hlive (Bool.eq_false_of_not_eq_true hj)
  have hbytes : d.bytes = written (d.opened ++ d.acked) := by
    rcases h.bytes with ⟨-, hbytes⟩ | ⟨e', n, hsome, -⟩
    · exact hbytes
    · rw [hflight] at hsome
      cases hsome
  rcases fate with - | ⟨n, - | -⟩
  · unfold JournalDisk.record FileJournal.record
    rw [if_neg hj]
    refine ⟨?_, .inl ⟨hflight, ?_⟩, fun _ _ _ => hflight, ?_⟩
    · dsimp only
      rw [← List.append_assoc]
      exact readable_concat h.readable he
    · dsimp only
      rw [← List.append_assoc, written_concat, hbytes]
    · dsimp only
      rw [← List.append_assoc]
      exact h.kept.append (List.Sublist.refl [e])
  · unfold JournalDisk.record FileJournal.record
    rw [if_neg hj]
    dsimp only
    rw [if_neg Bool.false_ne_true]
    refine ⟨h.readable, ?_, ?_, h.kept⟩
    · by_cases hnone : d.bytes ++ (FileJournal.appended e).take n = d.bytes
      · exact .inl ⟨by rw [if_pos hnone, hflight], hnone.trans hbytes⟩
      · exact .inr ⟨e, n, by rw [if_neg hnone], he, by rw [← hbytes]⟩
    · intro j' hj' hclean
      rw [← Option.some.inj hj'] at hclean
      cases hclean
  · rw [JournalDisk.record_unchanged (FileJournal.record_rolled hj ..)]
    exact h.live hlive

theorem Sound.step {d d' : JournalDisk} (h : Sound d) (hstep : JournalStep d d') : Sound d' := by
  cases hstep with
  | opened hdead hopen hread => exact h.opened hopen hread
  | recorded hlive he fate => exact h.recorded hlive he fate
  | crashed => exact ⟨h.readable, h.bytes, fun _ hj => absurd hj (by simp), h.kept⟩
  | crashedIn hlive hclean he n =>
    have hflight := h.boundary _ hlive hclean
    rcases h.bytes with ⟨-, hbytes⟩ | ⟨e', n', hsome, -⟩
    · refine ⟨h.readable, .inr ⟨_, n, rfl, he, ?_⟩,
        fun _ hj => absurd hj (by simp [JournalDisk.dieIn]), h.kept⟩
      rw [JournalDisk.dieIn, hbytes]
    · rw [hflight] at hsome
      cases hsome

theorem JournalRun.sound {d : JournalDisk} (h : JournalRun d) : Sound d := by
  induction h with
  | fresh => exact .fresh
  | step _ hstep ih => exact ih.step hstep

/-- Any entries may be those recorded in a run. -/
theorem JournalRun.recording {es : List VoteEntry} (hes : ∀ e ∈ es, Readable e) :
    JournalRun ⟨written es, some ⟨(written es).length, false⟩, [], es, es, none⟩ := by
  induction es using List.reverseRecOn with
  | nil => exact .step .fresh (.opened rfl (open_closed hes) (entries_closed hes rfl))
  | append_singleton es e ih =>
    have hlast : JournalDisk.record ⟨written es, some ⟨(written es).length, false⟩, [], es, es, none⟩
        ⟨(written es).length, false⟩ e .synced = ⟨written (es ++ [e]),
          some ⟨(written (es ++ [e])).length, false⟩, [], es ++ [e], es ++ [e], none⟩ := by
      rw [written_concat, List.length_append]
      rfl
    rw [← hlast]
    exact .step (ih fun e' h => hes e' (List.mem_append_left [e] h))
      (.recorded rfl (hes e (by simp)) .synced)

/-- **The journal survives any crash.** Whatever opens, records and crashes went
before, the file opens, and its entries are those read when it was last opened,
those acknowledged since, and at most the one whose write was in flight. Every
entry ever acknowledged is among them, in order; and a handle that takes records
appends them after the last newline. -/
theorem journal_survives {d : JournalDisk} (h : JournalRun d) :
    (∃ bytes j es, FileJournal.open d.bytes = .ok (bytes, j) ∧ j.entries bytes = .ok es ∧
      (es = d.opened ++ d.acked ∨ ∃ e, d.inFlight = some e ∧ es = d.opened ++ d.acked ++ [e]) ∧
      d.everAcked.Sublist es) ∧
    ∀ j, d.handle = some j → j.poisoned = false →
      d.bytes = Lines.closed newline ((d.opened ++ d.acked).map EntryCodec.line) := by
  have hsound := h.sound
  obtain ⟨es, j, hopen, hj, hes, hcases⟩ := hsound.opens
  refine ⟨⟨_, j, es, hopen, entries_closed hes hj, hcases, ?_⟩, ?_⟩
  · rcases hcases with rfl | ⟨e, -, rfl⟩
    · exact hsound.kept
    · exact hsound.kept.trans (List.sublist_append_left _ _)
  · intro j' hlive hclean
    rcases hsound.bytes with ⟨-, hbytes⟩ | ⟨e, n, hsome, -⟩
    · exact hbytes
    · rw [hsound.boundary j' hlive hclean] at hsome
      cases hsome

end

/-! ### A run -/

section

def jsonString (s : Bytes) : Bytes := 0x22 :: s ++ [0x22]

def jsonField (name : List Char) (value : Bytes) : Bytes := jsonString (ascii name) ++ 0x3a :: value

def jsonObject (fields : List Bytes) : Bytes := 0x7b :: [0x2c].intercalate fields ++ [0x7d]

/-- The JSON of an entry with no signature. -/
def entryText (e : VoteEntry) : Bytes :=
  jsonObject [
    jsonField ['s', 'c', 'o', 'p', 'e'] (match e.scope with
      | .height h => jsonObject [jsonField ['h', 'e', 'i', 'g', 'h', 't'] (decimalText h)]
      | .burn key => jsonObject [jsonField ['b', 'u', 'r', 'n'] (jsonString (burnKeyText key))]),
    jsonField ['r', 'o', 'l', 'e'] (jsonString (ascii (match e.role with
      | .proposed => ['p', 'r', 'o', 'p', 'o', 's', 'e', 'd']
      | .signed => ['s', 'i', 'g', 'n', 'e', 'd']))),
    jsonField ['s', 'u', 'b', 'j', 'e', 'c', 't'] (jsonString e.subject),
    jsonField ['d', 'i', 'g', 'e', 's', 't'] (jsonString (hashText e.digest)),
    jsonField ['a', 't'] (decimalText e.time),
    jsonField ['s', 't', 'a', 'g', 'e'] (jsonString (ascii (match e.stage with
      | .intent => ['i', 'n', 't', 'e', 'n', 't']
      | .signed => ['s', 'i', 'g', 'n', 'e', 'd'])))]

/-- A reader that knows the entries of a list. -/
@[reducible] def sampleEntryCodec (known : List VoteEntry) : EntryCodec where
  line := entryText
  read b := known.find? fun e => entryText e == b

/-- No part of a text is one of those known, unless as long as the whole. -/
theorem find_part {α : Type} {f : α → Bytes} {known : List α} {text : Bytes}
    (h : ∀ a ∈ known, text.take (f a).length = f a → text.length ≤ (f a).length) :
    ∀ n < text.length, known.find? (fun a => f a == text.take n) = none := by
  intro n hn
  refine List.find?_eq_none.mpr fun a ha hsame => ?_
  have hpart : f a = text.take n := eq_of_beq hsame
  have hlen : (f a).length = n := by
    rw [hpart, List.length_take, Nat.min_eq_left hn.le]
  have := h a ha (by rw [hlen, ← hpart])
  omega

/-- The text of an entry is a line by itself, and of those known its own alone. -/
@[reducible] def Told (known : List VoteEntry) (e : VoteEntry) : Prop :=
  newline ∉ entryText e ∧ utf8Valid (entryText e) = true ∧ trim (entryText e) ≠ [] ∧
    (known.find? fun e' => entryText e' == entryText e) = some e ∧
    ∀ e' ∈ known, (entryText e).take (entryText e').length = entryText e' →
      (entryText e).length ≤ (entryText e').length

theorem sampleReadable {known : List VoteEntry} {e : VoteEntry} (h : Told known e) :
    @Readable (sampleEntryCodec known) e := by
  let codec := sampleEntryCodec known
  obtain ⟨hline, htext, hshown, hreads, hpart⟩ := h
  exact ⟨hline, htext, hshown, hreads, find_part hpart⟩

def sampleVote (height : ℕ) : VoteEntry :=
  ⟨.height height, .signed, ascii ['a', 'b'], 1, 1790000000000 + height, .intent, none⟩

@[reducible] def twoVotes : EntryCodec := sampleEntryCodec [sampleVote 1, sampleVote 2]

attribute [local instance] twoVotes

theorem sampleVotes_readable : ∀ e ∈ [sampleVote 1, sampleVote 2], Readable e := by
  have htold : ∀ e ∈ [sampleVote 1, sampleVote 2], Told [sampleVote 1, sampleVote 2] e := by
    decide +kernel
  exact fun e he => sampleReadable (htold e he)

/-- The file after a crash that left all of a record. -/
def sampleTorn : JournalDisk :=
  ⟨FileJournal.appended (sampleVote 1), none, [], [], [], some (sampleVote 1)⟩

/-- Opened again, and another entry recorded. -/
def sampleRecorded : JournalDisk :=
  let j : FileJournal := ⟨(written [sampleVote 1, sampleVote 2]).length, false⟩
  ⟨written [sampleVote 1, sampleVote 2], some j, [sampleVote 1], [sampleVote 2], [sampleVote 2], none⟩

theorem sampleTorn_run : JournalRun sampleTorn := by
  have hopened : JournalRun ⟨[], some ⟨0, false⟩, [], [], [], none⟩ :=
    .step .fresh (.opened rfl (open_closed (List.forall_mem_nil _))
      (entries_closed (List.forall_mem_nil _) rfl))
  have htorn : sampleTorn = JournalDisk.dieIn ⟨[], some ⟨0, false⟩, [], [], [], none⟩
      (sampleVote 1) (FileJournal.appended (sampleVote 1)).length := by
    unfold JournalDisk.dieIn
    rw [List.take_length]
    rfl
  rw [htorn]
  exact .step hopened (.crashedIn rfl rfl (sampleVotes_readable _ List.mem_cons_self) _)

theorem sampleRecorded_run : JournalRun sampleRecorded := by
  let j : FileJournal := ⟨(written [sampleVote 1]).length, false⟩
  have hfirst : ∀ e ∈ [sampleVote 1], Readable e :=
    List.forall_mem_singleton.mpr (sampleVotes_readable _ List.mem_cons_self)
  have hbytes : written [sampleVote 1] = sampleTorn.bytes := written_concat [] (sampleVote 1)
  have hopened : JournalRun ⟨written [sampleVote 1], some j, [sampleVote 1], [], [], none⟩ :=
    .step sampleTorn_run (.opened rfl (hbytes ▸ open_closed hfirst) (entries_closed hfirst rfl))
  have hrecorded : sampleRecorded = JournalDisk.record
      ⟨written [sampleVote 1], some j, [sampleVote 1], [], [], none⟩ j (sampleVote 2) .synced := by
    unfold sampleRecorded JournalDisk.record
    rw [show [sampleVote 1, sampleVote 2] = [sampleVote 1] ++ [sampleVote 2] from rfl,
      written_concat, List.length_append]
    rfl
  rw [hrecorded]
  exact .step hopened (.recorded rfl (sampleVotes_readable _ (by simp)) .synced)

/-- The record in flight at the first crash is read before the acknowledged one. -/
theorem journal_not_acked_first : ¬ ∀ d : JournalDisk, JournalRun d →
    ∀ bytes j es, FileJournal.open d.bytes = .ok (bytes, j) → j.entries bytes = .ok es →
      ∃ tail, es = d.everAcked ++ tail ∧ tail.length ≤ 1 := by
  intro hall
  obtain ⟨tail, htail, -⟩ := hall { sampleRecorded with handle := none }
    (.step sampleRecorded_run .crashed) (written [sampleVote 1, sampleVote 2])
    ⟨(written [sampleVote 1, sampleVote 2]).length, false⟩ [sampleVote 1, sampleVote 2]
    (open_closed sampleVotes_readable) (entries_closed sampleVotes_readable rfl)
  exact absurd (List.cons.inj htail).1 (by decide)

theorem journal_survives_sample :
    ∃ bytes j es, FileJournal.open sampleTorn.bytes = .ok (bytes, j) ∧
      j.entries bytes = .ok es ∧ (es = [] ∨ ∃ e, sampleTorn.inFlight = some e ∧ es = [e]) := by
  obtain ⟨⟨bytes, j, es, hopen, hread, hes, -⟩, -⟩ := journal_survives sampleTorn_run
  exact ⟨bytes, j, es, hopen, hread, hes⟩

end

end Round

end Sidestr
