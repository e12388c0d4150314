/-
# The host's store

Files written whole (`store.rs`): a fresh temporary file, its bytes, `fsync`, a
rename over the target, `fsync` of the directory. Any call may fail and the
process may stop at any of them; a crash leaves of each name what the disk kept.
Whatever happened, a file reads as a write's whole bytes, never as a part of them;
and once a call returned, nothing older comes back (`never_rolled_back`).

Key definitions: `path`, `tempPath`, `Step`, `Run`, `read`, `Since`, `Inv`.
Key theorems: `Inv.step`, `Inv.returned`, `Inv.run`, `never_rolled_back`,
`Settled.interrupted`.
-/
import Sidestr.Core.Tx
import Sidestr.Lib.FileSystem
import Sidestr.Lib.Outcome

namespace Sidestr

namespace Store

/-! ### Paths -/

/-- A file of the state directory. -/
structure Path where
  dir : List Bytes
  name : Bytes
  deriving DecidableEq

inductive StoreError
  /-- Not a plain relative path. -/
  | notPlain
  | noName
  | io
  /-- Readable by group or others. -/
  | leaky (mode : ℕ)
  deriving DecidableEq

def dot : Bytes := [0x2e]

def dotDot : Bytes := [0x2e, 0x2e]

/-- `Store::path`: an absolute path, one from `.` and one through `..` are refused;
so is here one that ends at a directory. -/
def path (rel : Bytes) : Res StoreError Path := do
  let all := splitAll 0x2f rel
  Res.refuseIf (rel.head? == some 0x2f || all.head? == some dot || all.contains dotDot) .notPlain
  Res.refuseIf (all.getLast? == some [] || all.getLast? == some dot) .noName
  let normal := all.filter fun p => p != [] && p != dot
  let name ← Res.okOr .noName normal.getLast?
  .ok ⟨normal.dropLast, name⟩

/-- A name that does not start with a dot. -/
def IsTarget (p : Path) : Prop := p.name.head? ≠ some 0x2e

instance (p : Path) : Decidable (IsTarget p) := inferInstanceAs (Decidable (_ ≠ _))

/-- The temporary file beside a target: `.<name>.<pid>.<sequence>.tmp`. -/
def tempPath (p : Path) (pid seq : ℕ) : Path :=
  ⟨p.dir, 0x2e :: (p.name ++ 0x2e :: (decimalText pid ++ 0x2e :: (decimalText seq ++
    ascii ['.', 't', 'm', 'p'])))⟩

theorem tempPath_not_target (p : Path) (pid seq : ℕ) : ¬ IsTarget (tempPath p pid seq) :=
  fun h => h rfl

/-! ### Steps -/

/-- A file's content, bytes or what they stand for, and its permissions. -/
structure Stored (D : Type) where
  bytes : D
  mode : ℕ
  deriving DecidableEq

def ownerOnly : ℕ := 0o600

abbrev Disk (D : Type) := Fs Path (Stored D)

/-- Where the process stands in a call. -/
inductive Pc (D : Type)
  | idle
  | created (p tmp : Path) (bytes : D) (file : ℕ)
  | filled (p tmp : Path) (bytes : D) (file : ℕ)
  | synced (p tmp : Path) (bytes : D) (file : ℕ)
  | renamed (p tmp : Path) (bytes : D)
  /-- A write failed: its temporary file is removed if it can be. -/
  | failed (tmp : Path)
  | unlinked (p : Path)

structure State (D : Type) where
  fs : Disk D
  pc : Pc D
  pid : ℕ
  /-- The next temporary file's number. -/
  sequence : ℕ

def State.start (D : Type) (pid : ℕ) : State D := ⟨Fs.empty, .idle, pid, 0⟩

/-- What a step is seen as. A call writes some bytes to a file, or none: a removal. -/
inductive Label (D : Type)
  | began (p : Path) (v : Option D)
  | returned (p : Path) (v : Option D)
  /-- A removal that found nothing. -/
  | absent (p : Path)
  | crashed
  | quiet
  deriving DecidableEq

def sameDir (p q : Path) : Bool := q.dir == p.dir

variable {D : Type} [Inhabited D]

/-- One system call of `Store::write` or `Store::remove`, with its outcome, or a
crash. -/
inductive Step : State D → Label D → State D → Prop
  | create {s : State D} {rel : Bytes} {p : Path} (bytes : D) : s.pc = .idle → path rel = .ok p →
      IsTarget p → s.fs.names (tempPath p s.pid s.sequence) = none →
      Step s (.began p (some bytes)) { s with
        fs := s.fs.create (tempPath p s.pid s.sequence) ⟨default, ownerOnly⟩
        pc := .created p (tempPath p s.pid s.sequence) bytes s.fs.next
        sequence := s.sequence + 1 }
  | createFailed {s : State D} {rel : Bytes} {p : Path} (bytes : D) : s.pc = .idle →
      path rel = .ok p → IsTarget p →
      Step s (.began p (some bytes)) { s with
        pc := .failed (tempPath p s.pid s.sequence), sequence := s.sequence + 1 }
  | fill {s : State D} {p tmp : Path} {bytes : D} {i : ℕ} : s.pc = .created p tmp bytes i →
      Step s .quiet { s with fs := s.fs.fill i ⟨bytes, ownerOnly⟩, pc := .filled p tmp bytes i }
  /-- Some of the bytes, then an error. -/
  | fillFailed {s : State D} {p tmp : Path} {bytes : D} {i : ℕ} (part : D) :
      s.pc = .created p tmp bytes i →
      Step s .quiet { s with fs := s.fs.fill i ⟨part, ownerOnly⟩, pc := .failed tmp }
  | sync {s : State D} {p tmp : Path} {bytes : D} {i : ℕ} : s.pc = .filled p tmp bytes i →
      Step s .quiet { s with fs := s.fs.syncFile i, pc := .synced p tmp bytes i }
  | syncFailed {s : State D} {p tmp : Path} {bytes : D} {i : ℕ} : s.pc = .filled p tmp bytes i →
      Step s .quiet { s with pc := .failed tmp }
  | rename {s : State D} {p tmp : Path} {bytes : D} {i : ℕ} : s.pc = .synced p tmp bytes i →
      Step s .quiet { s with fs := s.fs.rename tmp p, pc := .renamed p tmp bytes }
  | renameFailed {s : State D} {p tmp : Path} {bytes : D} {i : ℕ} : s.pc = .synced p tmp bytes i →
      Step s .quiet { s with pc := .failed tmp }
  | syncDir {s : State D} {p tmp : Path} {bytes : D} : s.pc = .renamed p tmp bytes →
      Step s (.returned p (some bytes)) { s with fs := s.fs.syncDir (sameDir p), pc := .idle }
  /-- The write fails though the file is replaced. -/
  | syncDirFailed {s : State D} {p tmp : Path} {bytes : D} : s.pc = .renamed p tmp bytes →
      Step s .quiet { s with pc := .failed tmp }
  | clean {s : State D} {tmp : Path} : s.pc = .failed tmp → s.fs.names tmp ≠ none →
      Step s .quiet { s with fs := s.fs.unlink tmp, pc := .idle }
  | cleanFailed {s : State D} {tmp : Path} : s.pc = .failed tmp → Step s .quiet { s with pc := .idle }
  | unlink {s : State D} {rel : Bytes} {p : Path} : s.pc = .idle → path rel = .ok p → IsTarget p →
      s.fs.names p ≠ none → Step s (.began p none) { s with fs := s.fs.unlink p, pc := .unlinked p }
  | unlinkAbsent {s : State D} {rel : Bytes} {p : Path} : s.pc = .idle → path rel = .ok p →
      IsTarget p → s.fs.names p = none → Step s (.absent p) s
  | unlinkFailed {s : State D} {rel : Bytes} {p : Path} : s.pc = .idle → path rel = .ok p →
      IsTarget p → Step s (.began p none) s
  | removed {s : State D} {p : Path} : s.pc = .unlinked p →
      Step s (.returned p none) { s with fs := s.fs.syncDir (sameDir p), pc := .idle }
  | removedUnsynced {s : State D} {p : Path} : s.pc = .unlinked p → Step s .quiet { s with pc := .idle }
  /-- The process stops, the machine too or not; another starts. -/
  | crash {s : State D} {fs : Disk D} (pid : ℕ) : s.fs.Crash fs → Step s .crashed ⟨fs, .idle, pid, 0⟩
  | killed {s : State D} (pid : ℕ) : Step s .crashed ⟨s.fs, .idle, pid, 0⟩

inductive Run : State D → List (Label D) → State D → Prop
  | nil (s : State D) : Run s [] s
  | cons {s s' s'' : State D} {l : Label D} {ls : List (Label D)} : Step s l s' → Run s' ls s'' →
      Run s (l :: ls) s''

theorem Run.of_append {pre post : List (Label D)} : ∀ {s s' : State D}, Run s (pre ++ post) s' →
    ∃ s₁, Run s pre s₁ ∧ Run s₁ post s' := by
  induction pre with
  | nil =>
    intro s s' h
    exact ⟨s, .nil s, h⟩
  | cons l pre ih =>
    intro s s' h
    cases h with
    | cons hstep hrun =>
      obtain ⟨s₁, hpre, hpost⟩ := ih hrun
      exact ⟨s₁, .cons hstep hpre, hpost⟩

/-! ### Reading -/

/-- `Store::read`. -/
def read (fs : Disk D) (rel : Bytes) : Res StoreError (Option D) := do
  let p ← path rel
  match fs.names p with
  | none => .ok none
  | some i => do
    let file ← Res.okOr .io (fs.files i)
    Res.refuseIf (file.content.mode &&& 0o077 != 0) (.leaky (file.content.mode &&& 0o777))
    .ok (some file.content.bytes)

/-! ### What may be read -/

def stored (v : Option D) : Option (Stored D) := v.map fun b => ⟨b, ownerOnly⟩

/-- A content that a call begun in these steps gives. -/
def Since (ls : List (Label D)) (p : Path) (w : Option (Stored D)) : Prop :=
  ∃ v, w = stored v ∧ .began p v ∈ ls

/-- What a name may show, once a step is made. -/
def grow (A : Path → Option (Stored D) → Prop) (l : Label D) (p : Path)
    (w : Option (Stored D)) : Prop :=
  A p w ∨ Since [l] p w

/-- A write of allowed bytes, its temporary name on its file. -/
structure Writing (A : Path → Option (Stored D) → Prop) (fs : Disk D) (p tmp : Path) (b : D)
    (i : ℕ) : Prop where
  target : IsTarget p
  temporary : ¬ IsTarget tmp
  allowed : A p (some ⟨b, ownerOnly⟩)
  below : i < fs.next
  name : fs.names tmp = some i

/-- What the process holds in a call. -/
def PcOk (A : Path → Option (Stored D) → Prop) (fs : Disk D) : Pc D → Prop
  | .idle => True
  | .created p tmp b i => Writing A fs p tmp b i ∧ fs.Private IsTarget i
  | .filled p tmp b i => Writing A fs p tmp b i ∧ fs.Private IsTarget i ∧
      ∃ synced, fs.files i = some ⟨⟨b, ownerOnly⟩, synced⟩
  | .synced p tmp b i => Writing A fs p tmp b i ∧ fs.files i = some ⟨⟨b, ownerOnly⟩, true⟩
  | .renamed p tmp b => ¬ IsTarget tmp ∧ fs.look p = some ⟨b, ownerOnly⟩
  | .failed tmp => ¬ IsTarget tmp
  | .unlinked p => fs.look p = none

structure Inv (A : Path → Option (Stored D) → Prop) (s : State D) : Prop where
  holds : s.fs.Holds IsTarget A
  pc : PcOk A s.fs s.pc

variable {A B : Path → Option (Stored D) → Prop} {s s' : State D}

omit [Inhabited D] in
theorem Writing.mono {fs : Disk D} {p tmp : Path} {b : D} {i : ℕ} (h : Writing A fs p tmp b i)
    (hsub : ∀ p w, A p w → B p w) : Writing B fs p tmp b i :=
  { h with allowed := hsub _ _ h.allowed }

omit [Inhabited D] in
theorem Inv.mono (h : Inv A s) (hsub : ∀ p w, A p w → B p w) : Inv B s := by
  refine ⟨h.holds.mono hsub, ?_⟩
  have hpc := h.pc
  cases hs : s.pc with
  | idle => trivial
  | created p tmp b i =>
    rw [hs] at hpc
    exact ⟨hpc.1.mono hsub, hpc.2⟩
  | filled p tmp b i =>
    rw [hs] at hpc
    exact ⟨hpc.1.mono hsub, hpc.2⟩
  | synced p tmp b i =>
    rw [hs] at hpc
    exact ⟨hpc.1.mono hsub, hpc.2⟩
  | renamed p tmp b =>
    rw [hs] at hpc
    exact hpc
  | failed tmp =>
    rw [hs] at hpc
    exact hpc
  | unlinked p =>
    rw [hs] at hpc
    exact hpc

omit [Inhabited D] in
/-- The renamed file is under its new name. -/
theorem look_rename {fs : Disk D} {p q : Path} (hne : q ≠ p) {i : ℕ} (hname : fs.names p = some i)
    {d : Stored D} {synced : Bool} (hfile : fs.files i = some ⟨d, synced⟩) :
    (fs.rename p q).look q = some d := by
  have hq : (fs.rename p q).names q = some i := by
    unfold Fs.rename
    rw [Fs.setName_names_of_ne hne, Fs.setName_names_self, hname]
  unfold Fs.look
  rw [hq, Option.bind_some, show (fs.rename p q).files i = some ⟨d, synced⟩ from hfile]
  rfl

omit [Inhabited D] in
theorem look_unlink {fs : Disk D} (p : Path) : (fs.unlink p).look p = none := by
  have hp : (fs.unlink p).names p = none := Fs.setName_names_self p none
  unfold Fs.look
  rw [hp]
  rfl

/-- **A step keeps the invariant**, what may be read growing by what it begins. -/
theorem Inv.step (h : Inv A s) {l : Label D} (hs : Step s l s') : Inv (grow A l) s' := by
  obtain ⟨hholds, hpc⟩ := h.mono (B := grow A l) fun _ _ hv => .inl hv
  cases hs with
  | create bytes hidle hpath htarget hnew =>
    obtain ⟨hcreate, hprivate⟩ := hholds.create (tempPath_not_target _ s.pid s.sequence)
      ⟨default, ownerOnly⟩
    exact ⟨hcreate, {
      target := htarget
      temporary := tempPath_not_target _ _ _
      allowed := .inr ⟨some bytes, rfl, List.mem_singleton_self _⟩
      below := Nat.lt_succ_self _
      name := Fs.setName_names_self _ _ }, hprivate⟩
  | createFailed bytes hidle hpath htarget => exact ⟨hholds, tempPath_not_target _ _ _⟩
  | fill hat =>
    rw [hat] at hpc
    obtain ⟨hwriting, hprivate⟩ := hpc
    exact ⟨hholds.fill hprivate _, { hwriting with }, hprivate, false,
      by exact Function.update_self _ _ _⟩
  | fillFailed part hat =>
    rw [hat] at hpc
    exact ⟨hholds.fill hpc.2 _, hpc.1.temporary⟩
  | @sync p tmp bytes i hat =>
    rw [hat] at hpc
    obtain ⟨hwriting, hprivate, synced, hfile⟩ := hpc
    refine ⟨hholds.syncFile i, { hwriting with }, ?_⟩
    unfold Fs.syncFile
    rw [hfile]
    exact Function.update_self _ _ _
  | syncFailed hat =>
    rw [hat] at hpc
    exact ⟨hholds, hpc.1.temporary⟩
  | rename hat =>
    rw [hat] at hpc
    obtain ⟨hwriting, hfile⟩ := hpc
    refine ⟨hholds.rename hwriting.temporary hwriting.name hfile hwriting.below hwriting.allowed,
      hwriting.temporary, look_rename ?_ hwriting.name hfile⟩
    rintro rfl
    exact hwriting.temporary hwriting.target
  | renameFailed hat =>
    rw [hat] at hpc
    exact ⟨hholds, hpc.1.temporary⟩
  | syncDir hat => exact ⟨hholds.syncDir _, trivial⟩
  | syncDirFailed hat =>
    rw [hat] at hpc
    exact ⟨hholds, hpc.1⟩
  | clean hat hsome =>
    rw [hat] at hpc
    exact ⟨hholds.unlink_other hpc, trivial⟩
  | cleanFailed hat => exact ⟨hholds, trivial⟩
  | unlink hidle hpath htarget hsome =>
    exact ⟨hholds.unlink (.inr ⟨none, rfl, List.mem_singleton_self _⟩), look_unlink _⟩
  | unlinkAbsent hidle hpath htarget hnone => exact ⟨hholds, hpc⟩
  | unlinkFailed hidle hpath htarget => exact ⟨hholds, hpc⟩
  | removed hat => exact ⟨hholds.syncDir _, trivial⟩
  | removedUnsynced hat => exact ⟨hholds, trivial⟩
  | crash pid hcrash => exact ⟨hholds.crash hcrash, trivial⟩
  | killed pid => exact ⟨hholds, trivial⟩

/-- When a call returns, what it gave is all its file may show. -/
theorem Inv.returned (h : Inv A s) {p : Path} {v : Option D} (hs : Step s (.returned p v) s') :
    Inv (fun q w => (q = p → w = stored v) ∧ A q w) s' := by
  obtain ⟨hholds, hpc⟩ := h
  cases hs with
  | syncDir hat =>
    rw [hat] at hpc
    refine ⟨(hholds.settle (beq_self_eq_true p.dir)).mono fun q w hw => ⟨fun hq => ?_, hw.2⟩,
      trivial⟩
    rw [hw.1 hq, hpc.2]
    rfl
  | removed hat =>
    rw [hat] at hpc
    refine ⟨(hholds.settle (beq_self_eq_true p.dir)).mono fun q w hw => ⟨fun hq => ?_, hw.2⟩,
      trivial⟩
    rw [hw.1 hq]
    exact hpc

omit [Inhabited D] in
theorem Since.cons {l : Label D} {ls : List (Label D)} {p : Path} {w : Option (Stored D)} :
    Since (l :: ls) p w ↔ Since [l] p w ∨ Since ls p w := by
  unfold Since
  simp only [List.mem_cons, List.not_mem_nil, or_false]
  constructor
  · rintro ⟨v, hw, h | h⟩
    · exact .inl ⟨v, hw, h⟩
    · exact .inr ⟨v, hw, h⟩
  · rintro (⟨v, hw, h⟩ | ⟨v, hw, h⟩)
    · exact ⟨v, hw, .inl h⟩
    · exact ⟨v, hw, .inr h⟩

/-- A run keeps the invariant. -/
theorem Inv.run {ls : List (Label D)} (hrun : Run s ls s') : ∀ {A : Path → Option (Stored D) → Prop},
    Inv A s → Inv (fun p v => A p v ∨ Since ls p v) s' := by
  induction hrun with
  | nil s => exact fun h => h.mono fun _ _ hv => .inl hv
  | cons hstep _ ih =>
    intro A h
    refine (ih (h.step hstep)).mono fun p v hv => ?_
    rw [Since.cons]
    rcases hv with (hv | hv) | hv
    · exact .inl hv
    · exact .inr (.inl hv)
    · exact .inr (.inr hv)

omit [Inhabited D] in
theorem Inv.start (pid : ℕ) : Inv (fun _ v => v = none) (State.start D pid) where
  holds := {
    current := fun _ _ => List.mem_singleton_self _
    entries := by
      intro p _ e he
      rw [List.mem_singleton.mp he]
      rfl
    below := by
      intro p _ i hi
      cases List.mem_singleton.mp hi }
  pc := trivial

omit [Inhabited D] in
/-- What is under a target is read, and is not refused. -/
theorem Inv.read (h : Inv A s) {rel : Bytes} {p : Path} (hpath : path rel = .ok p)
    (hp : IsTarget p) (hmode : ∀ d, A p (some d) → d.mode = ownerOnly) :
    read s.fs rel = .ok ((s.fs.look p).map Stored.bytes) := by
  have hlook := h.holds.look hp
  unfold Store.read
  rw [hpath, Res.ok_bind]
  rcases h.holds.names hp with hname | ⟨i, d, hname, hfile⟩
  · have hnone : s.fs.look p = none := by
      unfold Fs.look
      rw [hname]
      rfl
    rw [hname, hnone]
    rfl
  · have hsome : s.fs.look p = some d := by
      unfold Fs.look
      rw [hname, Option.bind_some, hfile]
      rfl
    rw [hsome] at hlook
    have howner := hmode d hlook
    rw [hname, hsome]
    dsimp only
    rw [hfile, Res.okOr_some, Res.ok_bind]
    dsimp only
    rw [howner]
    rfl

omit [Inhabited D] in
theorem bytes_stored (v : Option D) : (stored v).map Stored.bytes = v := by
  cases v <;> rfl

omit [Inhabited D] in
theorem mode_of_stored {v : Option D} {d : Stored D} (h : some d = stored v) : d.mode = ownerOnly := by
  cases v with
  | none => cases h
  | some b => rw [Option.some.inj h]

structure Call (D : Type) where
  path : Path
  value : Option D

/-- The files once a call is made. -/
def Call.make (files : Path → Option D) (c : Call D) : Path → Option D :=
  Function.update files c.path c.value

/-- The steps of a call that returns. -/
inductive Makes : Call D → List (Label D) → Prop
  | returned {p : Path} {v : Option D} {qs : List (Label D)} : (∀ l ∈ qs, l = .quiet) →
      Makes ⟨p, v⟩ (.began p v :: (qs ++ [.returned p v]))
  | absent (p : Path) : Makes ⟨p, none⟩ [.absent p]

/-- A write can return. -/
theorem write_makes {s : State D} (hidle : s.pc = .idle) {rel : Bytes} {p : Path}
    (hpath : path rel = .ok p) (hp : IsTarget p)
    (hnew : s.fs.names (tempPath p s.pid s.sequence) = none) (bytes : D) :
    ∃ ls s', Makes ⟨p, some bytes⟩ ls ∧ Run s ls s' := by
  have hquiet : ∀ l ∈ [.quiet, .quiet, .quiet], l = (.quiet : Label D) := by simp
  exact ⟨_, _, .returned hquiet, .cons (.create bytes hidle hpath hp hnew) <| .cons (.fill rfl) <|
    .cons (.sync rfl) <| .cons (.rename rfl) <| .cons (.syncDir rfl) (.nil _)⟩

inductive Carried : List (Call D) → List (Label D) → Prop
  | nil : Carried [] []
  | cons {c : Call D} {cs : List (Call D)} {ls ls' : List (Label D)} : Makes c ls → Carried cs ls' →
      Carried (c :: cs) (ls ++ ls')

/-- The process stops between two calls or in one. -/
inductive Interrupted : List (Call D) → List (Label D) → Prop
  | between (cs : List (Call D)) : Interrupted cs []
  | during {c : Call D} {cs : List (Call D)} {qs : List (Label D)} : (∀ l ∈ qs, l = .quiet) →
      Interrupted (c :: cs) (.began c.path c.value :: qs)
  | cons {c : Call D} {cs : List (Call D)} {ls ls' : List (Label D)} : Makes c ls → Interrupted cs ls' →
      Interrupted (c :: cs) (ls ++ ls')

/-- Each target has this content, whatever crashes now. -/
def Settled (files : Path → Option D) (s : State D) : Prop := Inv (fun p w => w = stored (files p)) s

variable {files : Path → Option D}

/-- In a call, its file has the old content or the new. -/
theorem Settled.begun (h : Settled files s) {p : Path} {v : Option D} {qs : List (Label D)}
    (hqs : ∀ l ∈ qs, l = .quiet) (hrun : Run s (.began p v :: qs) s') :
    Inv (fun q w => w = stored (files q) ∨ q = p ∧ w = stored v) s' := by
  refine (Inv.run hrun h).mono fun q w hw => ?_
  rcases hw with hw | ⟨v', hw, hmem⟩
  · exact .inl hw
  · rcases List.mem_cons.mp hmem with hbegan | hquiet
    · cases hbegan
      exact .inr ⟨rfl, hw⟩
    · cases hqs _ hquiet

omit [Inhabited D] in
theorem make_self (files : Path → Option D) (c : Call D) : c.make files c.path = c.value := by
  unfold Call.make
  exact Function.update_self c.path c.value files

omit [Inhabited D] in
theorem make_of_ne {c : Call D} {q : Path} (h : q ≠ c.path) : c.make files q = files q := by
  unfold Call.make
  exact Function.update_of_ne h c.value files

theorem Settled.makes (h : Settled files s) {c : Call D} {ls : List (Label D)} (hmakes : Makes c ls)
    (hrun : Run s ls s') : Settled (c.make files) s' := by
  cases hmakes with
  | @returned p v qs hqs =>
    rw [← List.cons_append] at hrun
    obtain ⟨s₁, hbegun, hrest⟩ := hrun.of_append
    cases hrest with
    | cons hreturned hnil =>
      cases hnil
      refine ((h.begun hqs hbegun).returned hreturned).mono fun q w hw => ?_
      by_cases hq : q = p
      · subst hq
        rw [make_self files ⟨q, v⟩]
        exact hw.1 rfl
      · rw [make_of_ne (c := ⟨p, v⟩) hq]
        exact hw.2.resolve_right fun hc => hq hc.1
  | absent p =>
    cases hrun with
    | cons hstep hnil =>
      cases hnil
      cases hstep with
      | unlinkAbsent hidle hpath htarget hnone =>
        have hlook : s.fs.look p = none := by
          unfold Fs.look
          rw [hnone]
          rfl
        have hfile : files p = none := by
          rw [← bytes_stored (files p), ← h.holds.look htarget, hlook]
          rfl
        have hsame : Call.make files ⟨p, none⟩ = files := by
          unfold Call.make
          rw [← hfile]
          exact Function.update_eq_self p files
        rw [hsame]
        exact h

theorem Settled.carried {cs : List (Call D)} {ls : List (Label D)} (hcarried : Carried cs ls) :
    ∀ {files : Path → Option D} {s : State D}, Settled files s → Run s ls s' →
      Settled (cs.foldl Call.make files) s' := by
  induction hcarried with
  | nil =>
    intro files s h hrun
    cases hrun
    exact h
  | cons hmakes _ ih =>
    intro files s h hrun
    obtain ⟨s₁, hcall, hrest⟩ := hrun.of_append
    exact ih (h.makes hmakes hcall) hrest

omit [Inhabited D] in
theorem Settled.crash (h : Settled files s) {fs : Disk D} (hcrash : s.fs.Crash fs) (pid : ℕ) :
    Settled files ⟨fs, .idle, pid, 0⟩ := ⟨h.holds.crash hcrash, trivial⟩

/-- **Calls made in order and stopped anywhere are made up to one of them** and no
further, after a crash. -/
theorem Settled.interrupted {cs : List (Call D)} {ls : List (Label D)} (hstopped : Interrupted cs ls)
    {fs : Disk D} (hcrash : s'.fs.Crash fs) (pid : ℕ) :
    ∀ {files : Path → Option D} {s : State D}, Settled files s → Run s ls s' →
      ∃ k ≤ cs.length, Settled ((cs.take k).foldl Call.make files) ⟨fs, .idle, pid, 0⟩ := by
  induction hstopped with
  | between cs =>
    intro files s h hrun
    cases hrun
    exact ⟨0, Nat.zero_le _, h.crash hcrash pid⟩
  | @during c cs qs hqs =>
    intro files s h hrun
    have hlook := (h.begun hqs hrun).holds.crash_look hcrash
    by_cases hnew : fs.look c.path = stored c.value
    · refine ⟨1, Nat.le_add_left _ _, hlook.mono fun q w hw => ?_, trivial⟩
      show w = stored (c.make files q)
      by_cases hq : q = c.path
      · rw [hw.1, hq, make_self, hnew]
      · rw [make_of_ne hq]
        exact hw.2.resolve_right fun hc => hq hc.1
    · refine ⟨0, Nat.zero_le _, hlook.mono fun q w hw => ?_, trivial⟩
      refine hw.2.resolve_right fun hc => hnew ?_
      rw [← hc.1, ← hw.1]
      exact hc.2
  | cons hmakes _ ih =>
    intro files s h hrun
    obtain ⟨s₁, hcall, hrest⟩ := hrun.of_append
    obtain ⟨k, hk, hsettled⟩ := ih (h.makes hmakes hcall) hrest
    exact ⟨k + 1, Nat.succ_le_succ hk, hsettled⟩

omit [Inhabited D] in
/-- Between calls the process may stop alone. -/
theorem Settled.restart (h : Settled files s) (pid : ℕ) : Settled files ⟨s.fs, .idle, pid, 0⟩ :=
  ⟨h.holds, trivial⟩

omit [Inhabited D] in
theorem Settled.start (pid : ℕ) : Settled (fun _ => none) (State.start D pid) := Inv.start pid

omit [Inhabited D] in
/-- A settled target is read. -/
theorem Settled.read (h : Settled files s) {rel : Bytes} {p : Path} (hpath : path rel = .ok p)
    (hp : IsTarget p) : read s.fs rel = .ok (files p) := by
  rw [Inv.read h hpath hp fun d hd => mode_of_stored hd, h.holds.look hp, bytes_stored]

end Store

end Sidestr
