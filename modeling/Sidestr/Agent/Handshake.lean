/-
# Two hosts open a channel

A host keeps each opening and each channel in memory and in a file, and acts
on the messages of the channel's peer (`host.rs`). Messages are lost, repeated
and reordered; a host stops between any two writes and starts again from its
files; a third party sends what it likes. A record is that of one channel id:
the handlers read and change no other.

What a host announces it has saved, and what it saved it rebuilds with the
same keys, so there is one answer to an `open` and one commit to an answer.
Hence two hosts that both have the channel hold the two ends of one exchange
(`hosts_agree`), and while both still may, it can be completed
(`handshake_completes`).

Key definitions: `Host`, `onMessage`, `load`, `System`, `Step`, `Reached`.
Key theorems: `Reached.inv`, `hosts_agree`, `load_returns`, `handshake_completes`.
-/
import Mathlib.Logic.Relation
import Sidestr.Hitch.Opening

namespace Sidestr

namespace Hitch

namespace Handshake

section

variable [OpeningHitch]

/-! ### A host's records of one channel id -/

/-- The messages of a handshake, and the syncs that stand in for them. -/
inductive Message
  | open (m : OpenMessage)
  | accept (m : AcceptMessage)
  | commit (m : CommitMessage)
  | ready (id : ChannelId)
  | sync (m : SyncMessage)

inductive HostError
  | opening (error : OpeningError)
  | host (what : Text)

def ofOpening {α : Type} : Res OpeningError α → Res HostError α
  | .ok a => .ok a
  | .err e => .err (.opening e)
  | .panic => .panic

omit [OpeningHitch] in
theorem ofOpening_eq_ok {α : Type} {x : Res OpeningError α} {a : α} :
    ofOpening x = .ok a ↔ x = .ok a := by
  cases x <;> simp [ofOpening]

/-- The host's spend key, and what it accepts. -/
structure Config where
  key : SecretKey
  rules : SighashRules
  minDelay : ℕ
  maxAmount : Option ℕ
  accepts : Point → Bool

def Config.me (cfg : Config) : Point := Hitch.public cfg.key

/-- What a funder keeps while it opens. -/
structure FunderPart where
  funding : OutPoint
  fundingValue : ℕ
  push : ℕ
  delay : ℕ
  fee : ℕ
  accept : Option AcceptMessage

def FunderPart.params (p : FunderPart) : OpenParams :=
  ⟨p.funding, p.fundingValue, p.push, p.delay, p.fee, none⟩

/-- What a receiver keeps while it opens. -/
structure ReceiverPart where
  «open» : OpenMessage
  minDelay : ℕ

inductive OpeningRole
  | funder | receiver
  deriving DecidableEq

/-- The secrets a handshake draws, with the randomness of its signatures. -/
structure Fresh where
  revocationBase : SecretKey
  revocation : SecretKey × SecretKey
  aux : Hash256

structure OpeningFile where
  role : OpeningRole
  peer : Point
  secrets : Fresh
  funder : Option FunderPart
  receiver : Option ReceiverPart

inductive OpeningState
  | proposed (f : FunderOpening)
  | accepted (acc : AcceptedFunder)
  | receiver (r : ReceiverOpening)

structure Opening where
  file : OpeningFile
  state : OpeningState

/-- The files of one channel id. -/
structure Disk where
  opening : Option OpeningFile
  channel : Option ChannelSnapshot

structure Host where
  opening : Option Opening
  channel : Option ChannelMachine
  disk : Disk

inductive Write
  | opening (file : OpeningFile)
  | channel (snapshot : ChannelSnapshot)
  | dropOpening

def Disk.write (d : Disk) : Write → Disk
  | .opening file => { d with opening := some file }
  | .channel snapshot => { d with channel := some snapshot }
  | .dropOpening => { d with opening := none }

def Disk.writes (d : Disk) (ws : List Write) : Disk := ws.foldl Disk.write d

/-- What a call leaves in memory, what it writes, in order, and then sends. -/
structure Effect where
  opening : Option Opening
  channel : Option ChannelMachine
  writes : List Write := []
  sends : List (Point × Message) := []

/-- Nothing changes; something may be sent again. -/
def Host.keep (h : Host) (sends : List (Point × Message)) : Effect :=
  { opening := h.opening, channel := h.channel, sends }

def Host.after (h : Host) (e : Effect) : Host := ⟨e.opening, e.channel, h.disk.writes e.writes⟩

/-! ### Starting from the files -/

def keysOf (cfg : Config) (secrets : Fresh) : OpeningKeys :=
  ⟨cfg.key, secrets.revocationBase, secrets.revocation⟩

def rebuildOpening (cfg : Config) (file : OpeningFile) : Res HostError OpeningState :=
  match file.role with
  | .funder => do
    let part ← Res.okOr (.host "a funder's opening without its half".toList) file.funder
    let f ← ofOpening (FunderOpening.propose part.params (keysOf cfg file.secrets) file.peer
      cfg.rules file.secrets.aux)
    match part.accept with
    | none => .ok (.proposed f.1)
    | some m => do
      let acc ← ofOpening (f.1.accept m file.secrets.aux)
      .ok (.accepted acc.1)
  | .receiver => do
    let part ← Res.okOr (.host "a receiver's opening without its half".toList) file.receiver
    let r ← ofOpening (ReceiverOpening.accept part.open file.peer (keysOf cfg file.secrets)
      cfg.rules ⟨part.minDelay, none⟩ file.secrets.aux)
    .ok (.receiver r.1)

/-- A saved channel, which must be this key's. -/
def loadChannel (cfg : Config) : Option ChannelSnapshot → Res HostError (Option ChannelMachine)
  | none => .ok none
  | some s => do
    let m ← ofOpening (ofMachine (restore s))
    Res.refuseIf (m.channel.key m.role != cfg.me) (.host "belongs to another key".toList)
    .ok (some m)

def loadOpening (cfg : Config) : Option OpeningFile → Res HostError (Option Opening)
  | none => .ok none
  | some file => do
    let state ← rebuildOpening cfg file
    .ok (some ⟨file, state⟩)

def load (cfg : Config) (d : Disk) : Res HostError Host := do
  let channel ← loadChannel cfg d.channel
  let opening ← loadOpening cfg d.opening
  .ok ⟨opening, channel, d⟩

/-! ### Calls -/

/-- The funder's command: the proposal is saved, then sent. -/
def openChannel (cfg : Config) (part : FunderPart) (peer : Point) (fresh : Fresh) :
    Res HostError Effect := do
  Res.refuseIf (peer == cfg.me) (.host "a channel needs two peers".toList)
  Res.refuseIf (decide (part.fundingValue < minOpen))
    (.host "a channel holds at least 10000 sats".toList)
  let f ← ofOpening (FunderOpening.propose part.params (keysOf cfg fresh) peer cfg.rules fresh.aux)
  let file := ⟨.funder, peer, fresh, some { part with accept := none }, none⟩
  .ok { opening := some ⟨file, .proposed f.1⟩, channel := none
        writes := [.opening file], sends := [(peer, .open f.2)] }

variable (cfg : Config) (h : Host)

/-- A proposal is answered once; the same answer is sent again. -/
def onOpen (sender : Point) (m : OpenMessage) (fresh : Fresh) : Res HostError Effect :=
  match h.channel, h.opening with
  | some _, _ => .ok (h.keep [])
  | none, some ⟨_, .receiver r⟩ => .ok (h.keep [(sender, .accept r.message)])
  | none, _ => do
    Res.refuseIf (!cfg.accepts sender) (.host "an open from one who is not accepted here".toList)
    Res.refuseIf (cfg.maxAmount.any fun most => decide (most < m.funding.value))
      (.host "an open above what is accepted".toList)
    let r ← ofOpening (ReceiverOpening.accept m sender (keysOf cfg fresh) cfg.rules
      ⟨cfg.minDelay, none⟩ fresh.aux)
    let file := ⟨.receiver, sender, fresh, none, some ⟨m, cfg.minDelay⟩⟩
    .ok { opening := some ⟨file, .receiver r.1⟩, channel := none
          writes := [.opening file], sends := [(sender, .accept r.2)] }

/-- The answer is saved before the commit is sent. -/
def onAccept (m : AcceptMessage) : Res HostError Effect :=
  match h.opening with
  | none => .ok (h.keep [])
  | some ⟨file, .accepted acc⟩ => .ok (h.keep [(file.peer, .commit acc.commit)])
  | some ⟨_, .receiver _⟩ => .ok (h.keep [])
  | some ⟨file, .proposed f⟩ => do
    let r ← ofOpening (f.accept m file.secrets.aux)
    let file' := { file with funder := file.funder.map fun part => { part with accept := some m } }
    .ok { opening := some ⟨file', .accepted r.1⟩, channel := h.channel
          writes := [.opening file'], sends := [(file.peer, .commit r.2)] }

/-- A channel is saved before its opening is dropped. -/
def adopt (m : ChannelMachine) (sends : List (Point × Message)) : Effect where
  opening := none
  channel := some m
  writes := [.channel m.snapshot, .dropOpening]
  sends := sends

def onCommit (m : CommitMessage) : Res HostError Effect :=
  match h.channel, h.opening with
  | some c, _ => .ok (h.keep (if c.role = .b then [(c.peerKey, .ready c.id)] else []))
  | none, some ⟨_, .receiver r⟩ => do
    let r ← ofOpening (r.commit m)
    .ok (adopt r.1 [(r.1.peerKey, .ready r.2)])
  | none, _ => .ok (h.keep [])

def onReady (id : ChannelId) : Res HostError Effect :=
  match h.channel, h.opening with
  | none, some ⟨_, .accepted acc⟩ => do
    let m ← ofOpening (acc.ready id)
    .ok (adopt m [])
  | _, _ => .ok (h.keep [])

/-- A channel answers a sync by itself; an opening sends what is next. -/
def onSync (m : SyncMessage) : Res HostError Effect :=
  match h.channel, h.opening with
  | none, some ⟨file, .accepted acc⟩ => do
    let r ← ofOpening (acc.receiveSync m)
    match r with
    | .resendCommit commit => .ok (h.keep [(file.peer, .commit commit)])
    | .ready m => .ok (adopt m [])
    | .waiting => .ok (h.keep [])
  | none, some ⟨file, .proposed f⟩ => .ok (h.keep [(file.peer, .open f.message)])
  | none, some ⟨file, .receiver r⟩ => .ok (h.keep [(file.peer, .accept r.message)])
  | _, _ => .ok (h.keep [])

/-- A message from anyone but the peer is dropped. -/
def wrongSender (sender : Point) : Bool :=
  match h.channel, h.opening with
  | some m, _ => m.peerKey != sender
  | none, some op => op.file.peer != sender
  | none, none => false

def handle (sender : Point) (fresh : Fresh) : Message → Res HostError Effect
  | .open m => onOpen cfg h sender m fresh
  | .accept m => onAccept h m
  | .commit m => onCommit h m
  | .ready id => onReady h id
  | .sync m => onSync h m

/-- A message taken; one that is refused changes nothing. -/
def onMessage (sender : Point) (m : Message) (fresh : Fresh) : Effect :=
  if wrongSender h sender then h.keep []
  else
    match handle cfg h sender fresh m with
    | .ok e => e
    | _ => h.keep []

/-- What a handshake waits for is asked for again. -/
def tickOpenings : Effect :=
  h.keep (match h.opening with
    | none => []
    | some ⟨file, .proposed f⟩ => [(file.peer, .open f.message)]
    | some ⟨file, .accepted acc⟩ => [(file.peer, .commit acc.commit)]
    | some ⟨file, .receiver r⟩ => [(file.peer, .accept r.message)])

/-- What a host acts on. -/
inductive Cause
  | message (sender : Point) (m : Message) (fresh : Fresh)
  | tick

def effect : Cause → Effect
  | .message sender m fresh => onMessage cfg h sender m fresh
  | .tick => tickOpenings h

end

section

variable [OpeningHitch]

/-! ### Two hosts -/

structure Packet where
  «from» : Side
  recipient : Point
  message : Message

/-- The funder's host and the receiver's, and everything either has sent. -/
structure System where
  hosts : Side → Host
  sent : List Packet

namespace System

variable (s : System)

def put (side : Side) (h : Host) : System := { s with hosts := Function.update s.hosts side h }

def act (side : Side) (e : Effect) : System where
  hosts := Function.update s.hosts side ((s.hosts side).after e)
  sent := s.sent ++ e.sends.map fun x => ⟨side, x.1, x.2⟩

/-- A message of the peer's is one it has sent to this host, or a sync of its
channel's, once it has one. Others send what they like. -/
def Occurs (cfg : Side → Config) (side : Side) : Cause → Prop
  | .message sender m _ => sender = (cfg side.other).me →
      ⟨side.other, (cfg side).me, m⟩ ∈ s.sent ∨
        (∃ sync, m = .sync sync) ∧ (s.hosts side.other).channel.isSome = true
  | .tick => True

end System

/-- A host acts, or stops after `k` of the writes and starts again. -/
inductive Step (cfg : Side → Config) : System → System → Prop
  | act {s : System} (side : Side) (cause : Cause) : s.Occurs cfg side cause →
      Step cfg s (s.act side (effect (cfg side) (s.hosts side) cause))
  | crash {s : System} (side : Side) (cause : Cause) (k : ℕ) {h : Host} : s.Occurs cfg side cause →
      load (cfg side) ((s.hosts side).disk.writes
        ((effect (cfg side) (s.hosts side) cause).writes.take k)) = .ok h →
      Step cfg s (s.put side h)

def noHost : Host := ⟨none, none, ⟨none, none⟩⟩

/-- What the steps reach once side A has opened towards side B. -/
inductive Reached (cfg : Side → Config) (part : FunderPart) (fresh : Fresh) : System → Prop
  | start {e : Effect} : openChannel (cfg .a) part (cfg .b).me fresh = .ok e →
      Reached cfg part fresh (System.act ⟨fun _ => noHost, []⟩ .a e)
  | step {s s' : System} : Reached cfg part fresh s → Step cfg s s' → Reached cfg part fresh s'

/-! ### Where each host stands -/

/-- The opening side A saved, with the answer it took. -/
def funderFile (peer : Point) (part : FunderPart) (fresh : Fresh) (m : Option AcceptMessage) :
    OpeningFile := ⟨.funder, peer, fresh, some { part with accept := m }, none⟩

/-- The funder: it proposed `f`, and took the answer `m`; the opening file may
outlast the channel's first save. -/
inductive FunderAt (f : FunderOpening) (file : Option AcceptMessage → OpeningFile) (aux : Hash256) :
    Option (AcceptMessage × AcceptedFunder) → Host → Prop
  | proposed : FunderAt f file aux none
      ⟨some ⟨file none, .proposed f⟩, none, some (file none), none⟩
  | accepted {m : AcceptMessage} {acc : AcceptedFunder} : f.accept m aux = .ok (acc, acc.commit) →
      FunderAt f file aux (some (m, acc))
        ⟨some ⟨file (some m), .accepted acc⟩, none, some (file (some m)), none⟩
  | adopted {m : AcceptMessage} {acc : AcceptedFunder} : f.accept m aux = .ok (acc, acc.commit) →
      FunderAt f file aux (some (m, acc))
        ⟨none, some acc.opened.machine, none, some acc.opened.machine.snapshot⟩
  | doubled {m : AcceptMessage} {acc : AcceptedFunder} : f.accept m aux = .ok (acc, acc.commit) →
      FunderAt f file aux (some (m, acc)) ⟨some ⟨file (some m), .accepted acc⟩,
        some acc.opened.machine, some (file (some m)), some acc.opened.machine.snapshot⟩

/-- A receiver's file and what is rebuilt from it. -/
structure Answers (cfg : Config) (file : OpeningFile) (m : OpenMessage) (r : ReceiverOpening) :
    Prop where
  role : file.role = .receiver
  part : ∃ minDelay, file.receiver = some ⟨m, minDelay⟩ ∧
    ReceiverOpening.accept m file.peer (keysOf cfg file.secrets) cfg.rules ⟨minDelay, none⟩
      file.secrets.aux = .ok (r, r.message)

/-- The receiver: it answered `m` with `r`, and took the commit `c`. -/
inductive ReceiverAt (cfg : Config) : Option (OpeningFile × OpenMessage × ReceiverOpening) →
    Option CommitMessage → Host → Prop
  | idle : ReceiverAt cfg none none noHost
  | accepted {file : OpeningFile} {m : OpenMessage} {r : ReceiverOpening} :
      Answers cfg file m r → ReceiverAt cfg (some (file, m, r)) none
        ⟨some ⟨file, .receiver r⟩, none, some file, none⟩
  | adopted {file : OpeningFile} {m : OpenMessage} {r : ReceiverOpening} {c : CommitMessage} :
      Answers cfg file m r → r.commit c = .ok ((r.opened c.sig).machine, r.id) →
      ReceiverAt cfg (some (file, m, r)) (some c)
        ⟨none, some (r.opened c.sig).machine, none, some (r.opened c.sig).machine.snapshot⟩
  | doubled {file : OpeningFile} {m : OpenMessage} {r : ReceiverOpening} {c : CommitMessage} :
      Answers cfg file m r → r.commit c = .ok ((r.opened c.sig).machine, r.id) →
      ReceiverAt cfg (some (file, m, r)) (some c) ⟨some ⟨file, .receiver r⟩,
        some (r.opened c.sig).machine, some file, some (r.opened c.sig).machine.snapshot⟩

/-! ### What starts again from the files -/

section

variable {cfg : Config} {f : FunderOpening} {part : FunderPart} {fresh : Fresh} {peer : Point}

theorem rebuild_proposed (hf : FunderOpening.propose part.params (keysOf cfg fresh) peer cfg.rules
      fresh.aux = .ok (f, f.message)) :
    rebuildOpening cfg (funderFile peer part fresh none) = .ok (.proposed f) := by
  unfold rebuildOpening funderFile
  dsimp only [Res.okOr_some, Res.ok_bind]
  rw [show FunderPart.params { part with accept := none } = part.params from rfl, hf]
  rfl

theorem rebuild_accepted (hf : FunderOpening.propose part.params (keysOf cfg fresh) peer cfg.rules
      fresh.aux = .ok (f, f.message)) {m : AcceptMessage} {acc : AcceptedFunder}
    (hacc : f.accept m fresh.aux = .ok (acc, acc.commit)) :
    rebuildOpening cfg (funderFile peer part fresh (some m)) = .ok (.accepted acc) := by
  unfold rebuildOpening funderFile
  dsimp only [Res.okOr_some, Res.ok_bind]
  rw [show FunderPart.params { part with accept := some m } = part.params from rfl, hf]
  change ofOpening (f.accept m fresh.aux) >>= _ = _
  rw [hacc]
  rfl

theorem rebuild_receiver {file : OpeningFile} {m : OpenMessage} {r : ReceiverOpening}
    (h : Answers cfg file m r) : rebuildOpening cfg file = .ok (.receiver r) := by
  obtain ⟨minDelay, hpart, haccept⟩ := h.part
  unfold rebuildOpening
  rw [h.role]
  dsimp only
  rw [hpart, Res.okOr_some, Res.ok_bind, haccept]
  rfl

/-- A machine just handed over restores to itself, if it restores. -/
theorem loadChannel_handed {o : Opened} (hv : o.Valid) {c : Option ChannelMachine}
    (h : loadChannel cfg (some o.machine.snapshot) = .ok c) : c = some o.machine := by
  unfold loadChannel at h
  obtain ⟨m, hm, h⟩ := Res.bind_eq_ok.mp h
  obtain ⟨_, -, h⟩ := Res.bind_eq_ok.mp h
  cases h
  rw [ofOpening_eq_ok, ofMachine_eq_ok] at hm
  have hch : o.machine.Rebuilds := hv.channel
  rw [ChannelMachine.restore_eq hch hm]
  rfl

theorem load_ok {d : Disk} {h : Host} (hl : load cfg d = .ok h) :
    ∃ channel opening, loadChannel cfg d.channel = .ok channel ∧
      loadOpening cfg d.opening = .ok opening ∧ h = ⟨opening, channel, d⟩ := by
  unfold load at hl
  obtain ⟨channel, hchannel, hl⟩ := Res.bind_eq_ok.mp hl
  obtain ⟨opening, hopening, hl⟩ := Res.bind_eq_ok.mp hl
  cases hl
  exact ⟨channel, opening, hchannel, hopening, rfl⟩

theorem loadOpening_some {file : OpeningFile} {op : Option Opening} {state : OpeningState}
    (h : loadOpening cfg (some file) = .ok op) (hs : rebuildOpening cfg file = .ok state) :
    op = some ⟨file, state⟩ := by
  unfold loadOpening at h
  dsimp only at h
  rw [hs, Res.ok_bind] at h
  cases h
  rfl

/-- A funder that starts again stands where it stood. -/
theorem FunderAt.load (hf : FunderOpening.propose part.params (keysOf cfg fresh) peer cfg.rules
      fresh.aux = .ok (f, f.message)) {g : Option (AcceptMessage × AcceptedFunder)} {h h' : Host}
    (hat : FunderAt f (funderFile peer part fresh) fresh.aux g h)
    (hl : Handshake.load cfg h.disk = .ok h') :
    FunderAt f (funderFile peer part fresh) fresh.aux g h' := by
  obtain ⟨channel, opening, hchannel, hopening, rfl⟩ := load_ok hl
  have hproposed := (FunderOpening.propose_ok hf).1
  have hvalid : ∀ {m : AcceptMessage} {acc : AcceptedFunder},
      f.accept m fresh.aux = .ok (acc, acc.commit) → acc.opened.Valid := fun hacc =>
    (AcceptedFunder.handed hproposed (FunderOpening.accept_ok hacc).1).1.valid
  cases hat with
  | proposed =>
    cases hchannel
    rw [loadOpening_some hopening (rebuild_proposed hf)]
    exact .proposed
  | accepted hacc =>
    cases hchannel
    rw [loadOpening_some hopening (rebuild_accepted hf hacc)]
    exact .accepted hacc
  | adopted hacc =>
    cases hopening
    rw [loadChannel_handed (hvalid hacc) hchannel]
    exact .adopted hacc
  | doubled hacc =>
    rw [loadOpening_some hopening (rebuild_accepted hf hacc), loadChannel_handed (hvalid hacc) hchannel]
    exact .doubled hacc

theorem Answers.checked {file : OpeningFile} {m : OpenMessage} {r : ReceiverOpening}
    (h : Answers cfg file m r) :
    r.Checked m file.peer (keysOf cfg file.secrets) cfg.rules file.secrets.aux := by
  obtain ⟨_, -, haccept⟩ := h.part
  exact (ReceiverOpening.accept_ok haccept).1

/-- A receiver that starts again stands where it stood. -/
theorem ReceiverAt.load {g : Option (OpeningFile × OpenMessage × ReceiverOpening)}
    {c : Option CommitMessage} {h h' : Host} (hat : ReceiverAt cfg g c h)
    (hl : Handshake.load cfg h.disk = .ok h') : ReceiverAt cfg g c h' := by
  obtain ⟨channel, opening, hchannel, hopening, rfl⟩ := load_ok hl
  cases hat with
  | idle =>
    cases hchannel
    cases hopening
    exact .idle
  | accepted hr =>
    cases hchannel
    rw [loadOpening_some hopening (rebuild_receiver hr)]
    exact .accepted hr
  | adopted hr hc =>
    cases hopening
    rw [loadChannel_handed (ReceiverOpening.handed hr.checked hc).1.valid hchannel]
    exact .adopted hr hc
  | doubled hr hc =>
    rw [loadOpening_some hopening (rebuild_receiver hr),
      loadChannel_handed (ReceiverOpening.handed hr.checked hc).1.valid hchannel]
    exact .doubled hr hc

end

/-! ### What a call of each host does -/

theorem take_nil (d : Disk) (k : ℕ) : d.writes (([] : List Write).take k) = d := by
  rw [List.take_nil]
  rfl

/-- The channel is left as it is, in memory and on disk. -/
def Effect.Still (e : Effect) (h : Host) : Prop :=
  e.channel = h.channel ∧ ∀ k, (h.disk.writes (e.writes.take k)).channel = h.disk.channel

theorem keep_still (h : Host) (sends : List (Point × Message)) : (h.keep sends).Still h :=
  ⟨rfl, fun k => congrArg Disk.channel (take_nil h.disk k)⟩

theorem save_still {h : Host} {channel : Option ChannelMachine} (hc : channel = h.channel)
    (op : Option Opening) (file : OpeningFile) (sends : List (Point × Message)) :
    Effect.Still ⟨op, channel, [.opening file], sends⟩ h := by
  refine ⟨hc, fun k => ?_⟩
  rcases k with - | k
  · rfl
  · rw [List.take_succ_cons, List.take_nil]
    rfl

/-- What a call of the funder's leaves, done or stopped between its writes. -/
structure FunderMove (f : FunderOpening) (file : Option AcceptMessage → OpeningFile) (aux : Hash256)
    (peer : Point) (g g' : Option (AcceptMessage × AcceptedFunder)) (h : Host) (e : Effect) :
    Prop where
  after : FunderAt f file aux g' (h.after e)
  stopped : ∀ k, ∃ g₁ h₁, (g₁ = g ∨ g₁ = g') ∧ FunderAt f file aux g₁ h₁ ∧
    h₁.disk = h.disk.writes (e.writes.take k)
  sends : ∀ x ∈ e.sends, x.1 = peer ∧
    (x.2 = .open f.message ∨ ∃ m acc, g' = some (m, acc) ∧ x.2 = .commit acc.commit)

section

variable {f : FunderOpening} {file : Option AcceptMessage → OpeningFile} {aux : Hash256}
  {peer : Point} {g : Option (AcceptMessage × AcceptedFunder)} {h : Host}

theorem FunderMove.keep (hat : FunderAt f file aux g h) {sends : List (Point × Message)}
    (hsends : ∀ x ∈ sends, x.1 = peer ∧
      (x.2 = .open f.message ∨ ∃ m acc, g = some (m, acc) ∧ x.2 = .commit acc.commit)) :
    FunderMove f file aux peer g g h (h.keep sends) where
  after := hat
  stopped k := ⟨g, h, .inl rfl, hat, (take_nil h.disk k).symm⟩
  sends := hsends

theorem FunderMove.quiet (hat : FunderAt f file aux g h) :
    FunderMove f file aux peer g g h (h.keep []) :=
  .keep hat fun _ hx => absurd hx List.not_mem_nil

/-- A channel adopted: the opening file outlasts the channel's first save. -/
theorem FunderMove.adopt {m : AcceptMessage} {acc : AcceptedFunder}
    (hacc : f.accept m aux = .ok (acc, acc.commit)) :
    FunderMove f file aux peer (some (m, acc)) (some (m, acc))
      ⟨some ⟨file (some m), .accepted acc⟩, none, some (file (some m)), none⟩
      (Handshake.adopt acc.opened.machine []) where
  after := .adopted hacc
  stopped k := by
    rcases k with - | - | k
    · exact ⟨_, _, .inl rfl, .accepted hacc, rfl⟩
    · exact ⟨_, _, .inl rfl, .doubled hacc, rfl⟩
    · refine ⟨_, _, .inl rfl, .adopted hacc, ?_⟩
      unfold Handshake.adopt
      rw [List.take_succ_cons, List.take_succ_cons, List.take_nil]
      rfl
  sends _ hx := absurd hx List.not_mem_nil

/-- An answer taken, and saved before the commit is sent. -/
theorem FunderMove.accept (hpeer : (file none).peer = peer) {m : AcceptMessage}
    {acc : AcceptedFunder} (hacc : f.accept m aux = .ok (acc, acc.commit)) :
    FunderMove f file aux peer none (some (m, acc))
      ⟨some ⟨file none, .proposed f⟩, none, some (file none), none⟩
      { opening := some ⟨file (some m), .accepted acc⟩, channel := none
        writes := [.opening (file (some m))], sends := [((file none).peer, .commit acc.commit)] }
      where
  after := .accepted hacc
  stopped k := by
    rcases k with - | k
    · exact ⟨_, _, .inl rfl, .proposed, rfl⟩
    · refine ⟨_, _, .inr rfl, .accepted hacc, ?_⟩
      rw [List.take_succ_cons, List.take_nil]
      rfl
  sends x hx := by
    rw [List.mem_singleton] at hx
    subst hx
    exact ⟨hpeer, .inr ⟨m, acc, rfl, rfl⟩⟩

end

section

variable {cfg : Config} {f : FunderOpening} {part : FunderPart} {fresh : Fresh} {peer : Point}
  {g : Option (AcceptMessage × AcceptedFunder)} {h : Host}

/-- Being ready and a sync that stands for it make the machine handed over. -/
theorem ready_adopts (hf : f.Proposed part.params (keysOf cfg fresh) peer cfg.rules fresh.aux)
    {m : AcceptMessage} {acc : AcceptedFunder}
    (hacc : f.accept m fresh.aux = .ok (acc, acc.commit)) {x : ChannelMachine}
    (hx : acc.machine = .ok x) : x = acc.opened.machine := by
  rw [(AcceptedFunder.handed hf (FunderOpening.accept_ok hacc).1).2] at hx
  cases hx
  rfl

/-- The channel of a funder, and the answer it is made of. -/
theorem FunderAt.channel_of {file : Option AcceptMessage → OpeningFile} {aux : Hash256}
    (hat : FunderAt f file aux g h) {x : ChannelMachine} (hx : h.channel = some x) :
    ∃ m acc, f.accept m aux = .ok (acc, acc.commit) ∧ g = some (m, acc) ∧
      x = acc.opened.machine := by
  cases hat with
  | proposed | accepted hacc => cases hx
  | adopted hacc | doubled hacc =>
    cases hx
    exact ⟨_, _, hacc, rfl, rfl⟩

theorem FunderAt.disk_of {file : Option AcceptMessage → OpeningFile} {aux : Hash256}
    (hat : FunderAt f file aux g h) {x : ChannelMachine} (hx : h.channel = some x) :
    h.disk.channel.isSome = true := by
  cases hat with
  | proposed | accepted hacc => cases hx
  | adopted hacc | doubled hacc => rfl

/-- **What a call of the funder's does.** It takes one answer, from its peer, and
one channel, the answer's. -/
theorem FunderAt.effect
    (hf : f.Proposed part.params (keysOf cfg fresh) peer cfg.rules fresh.aux) (cause : Cause)
    (hopen : ∀ m fr, cause ≠ .message peer (.open m) fr)
    (hat : FunderAt f (funderFile peer part fresh) fresh.aux g h) :
    ∃ g', FunderMove f (funderFile peer part fresh) fresh.aux peer g g' h
        (Handshake.effect cfg h cause) ∧
      (g' = g ∨ g = none ∧ ∃ m acc fr, g' = some (m, acc) ∧
        cause = .message peer (.accept m) fr) ∧
      ((Handshake.effect cfg h cause).Still h ∨
        ∃ m fr, cause = .message peer m fr ∧ ((∃ id, m = .ready id) ∨ ∃ sync, m = .sync sync)) := by
  cases cause with
  | tick =>
    refine ⟨g, ?_, .inl rfl, .inl (keep_still h _)⟩
    unfold Handshake.effect tickOpenings
    refine .keep hat fun x hx => ?_
    cases hat with
    | proposed =>
      rw [List.mem_singleton] at hx
      subst hx
      exact ⟨rfl, .inl rfl⟩
    | accepted hacc | doubled hacc =>
      rw [List.mem_singleton] at hx
      subst hx
      exact ⟨rfl, .inr ⟨_, _, rfl, rfl⟩⟩
    | adopted hacc => cases hx
  | message sender message fr =>
    unfold Handshake.effect onMessage
    dsimp only
    split
    · exact ⟨g, .quiet hat, .inl rfl, .inl (keep_still h _)⟩
    rename_i hsender
    cases hhandle : handle cfg h sender fr message with
    | err _ => exact ⟨g, .quiet hat, .inl rfl, .inl (keep_still h _)⟩
    | panic => exact ⟨g, .quiet hat, .inl rfl, .inl (keep_still h _)⟩
    | ok e =>
      dsimp only
      cases hat with
      | proposed =>
        have hpeer : sender = peer := by
          unfold wrongSender funderFile at hsender
          simpa using Eq.symm (by simpa using hsender)
        subst hpeer
        cases message with
        | «open» m => exact absurd rfl (hopen m fr)
        | accept m =>
          unfold handle onAccept at hhandle
          dsimp only at hhandle
          obtain ⟨⟨acc, commit⟩, hacc, hhandle⟩ := Res.bind_eq_ok.mp hhandle
          rw [ofOpening_eq_ok] at hacc
          have hcommit := (FunderOpening.accept_ok hacc).2
          subst hcommit
          cases hhandle
          exact ⟨some (m, acc), .accept rfl hacc, .inr ⟨rfl, m, acc, fr, rfl, rfl⟩,
            .inl (save_still (by rfl) _ _ _)⟩
        | commit m | ready id =>
          cases hhandle
          exact ⟨none, .quiet .proposed, .inl rfl, .inl (keep_still _ _)⟩
        | sync m =>
          cases hhandle
          refine ⟨none, .keep .proposed fun x hx => ?_, .inl rfl, .inl (keep_still _ _)⟩
          rw [List.mem_singleton] at hx
          subst hx
          exact ⟨rfl, .inl rfl⟩
      | accepted hacc =>
        rename_i am acc
        have hpeer : sender = peer := by
          unfold wrongSender funderFile at hsender
          simpa using Eq.symm (by simpa using hsender)
        subst hpeer
        have hagain : ∀ x ∈ [(sender, Message.commit acc.commit)], x.1 = sender ∧
            (x.2 = .open f.message ∨ ∃ m acc', some (am, acc) = some (m, acc') ∧
              x.2 = .commit acc'.commit) := by
          intro x hx
          rw [List.mem_singleton] at hx
          subst hx
          exact ⟨rfl, .inr ⟨am, acc, rfl, rfl⟩⟩
        cases message with
        | «open» m => exact absurd rfl (hopen m fr)
        | accept m =>
          cases hhandle
          exact ⟨_, .keep (.accepted hacc) hagain, .inl rfl, .inl (keep_still _ _)⟩
        | commit m =>
          cases hhandle
          exact ⟨_, .quiet (.accepted hacc), .inl rfl, .inl (keep_still _ _)⟩
        | ready id =>
          unfold handle onReady at hhandle
          obtain ⟨x, hx, hhandle⟩ := Res.bind_eq_ok.mp hhandle
          rw [ofOpening_eq_ok] at hx
          obtain ⟨_, -, hx⟩ := Res.bind_eq_ok.mp hx
          cases hhandle
          rw [ready_adopts hf hacc hx]
          exact ⟨_, .adopt hacc, .inl rfl, .inr ⟨_, fr, rfl, .inl ⟨id, rfl⟩⟩⟩
        | sync m =>
          unfold handle onSync at hhandle
          obtain ⟨r, hr, hhandle⟩ := Res.bind_eq_ok.mp hhandle
          rw [ofOpening_eq_ok] at hr
          unfold AcceptedFunder.receiveSync at hr
          obtain ⟨_, -, hr⟩ := Res.bind_eq_ok.mp hr
          obtain ⟨_, -, hr⟩ := Res.bind_eq_ok.mp hr
          split_ifs at hr
          · cases hr
            cases hhandle
            exact ⟨_, .keep (.accepted hacc) hagain, .inl rfl, .inl (keep_still _ _)⟩
          · obtain ⟨x, hx, hr⟩ := Res.bind_eq_ok.mp hr
            cases hr
            cases hhandle
            rw [ready_adopts hf hacc hx]
            exact ⟨_, .adopt hacc, .inl rfl, .inr ⟨_, fr, rfl, .inr ⟨m, rfl⟩⟩⟩
          · cases hr
            cases hhandle
            exact ⟨_, .quiet (.accepted hacc), .inl rfl, .inl (keep_still _ _)⟩
      | adopted hacc =>
        cases message <;> cases hhandle <;>
          exact ⟨_, .quiet (.adopted hacc), .inl rfl, .inl (keep_still _ _)⟩
      | doubled hacc =>
        rename_i am acc
        cases message with
        | accept m =>
          cases hhandle
          refine ⟨_, .keep (.doubled hacc) fun x hx => ?_, .inl rfl, .inl (keep_still _ _)⟩
          rw [List.mem_singleton] at hx
          subst hx
          exact ⟨rfl, .inr ⟨am, acc, rfl, rfl⟩⟩
        | «open» m | commit m | ready id | sync m =>
          cases hhandle
          exact ⟨_, .quiet (.doubled hacc), .inl rfl, .inl (keep_still _ _)⟩

end

/-- What a call of the receiver's leaves, done or stopped between its writes. -/
structure ReceiverMove (cfg : Config) (q q' : Option (OpeningFile × OpenMessage × ReceiverOpening))
    (c c' : Option CommitMessage) (h : Host) (e : Effect) : Prop where
  after : ReceiverAt cfg q' c' (h.after e)
  stopped : ∀ k, ∃ q₁ c₁ h₁, (q₁ = q ∧ c₁ = c ∨ q₁ = q' ∧ c₁ = c') ∧ ReceiverAt cfg q₁ c₁ h₁ ∧
    h₁.disk = h.disk.writes (e.writes.take k)
  sends : ∀ x ∈ e.sends, ∃ file m r, q' = some (file, m, r) ∧ x.1 = file.peer ∧
    (x.2 = .accept r.message ∨ x.2 = .ready r.id ∧ c'.isSome = true)

section

variable {cfg : Config} {file : OpeningFile} {m : OpenMessage} {r : ReceiverOpening}
  {q : Option (OpeningFile × OpenMessage × ReceiverOpening)} {c : Option CommitMessage} {h : Host}

theorem ReceiverMove.keep (hat : ReceiverAt cfg q c h) {sends : List (Point × Message)}
    (hsends : ∀ x ∈ sends, ∃ file m r, q = some (file, m, r) ∧ x.1 = file.peer ∧
      (x.2 = .accept r.message ∨ x.2 = .ready r.id ∧ c.isSome = true)) :
    ReceiverMove cfg q q c c h (h.keep sends) where
  after := hat
  stopped k := ⟨q, c, h, .inl ⟨rfl, rfl⟩, hat, (take_nil h.disk k).symm⟩
  sends := hsends

theorem ReceiverMove.quiet (hat : ReceiverAt cfg q c h) :
    ReceiverMove cfg q q c c h (h.keep []) :=
  .keep hat fun _ hx => absurd hx List.not_mem_nil

/-- The answer sent again. -/
theorem ReceiverMove.again {sender : Point} (hat : ReceiverAt cfg (some (file, m, r)) c h)
    (hsender : sender = file.peer) :
    ReceiverMove cfg (some (file, m, r)) (some (file, m, r)) c c h
      (h.keep [(sender, .accept r.message)]) :=
  .keep hat fun x hx => by
    rw [List.mem_singleton] at hx
    subst hx
    exact ⟨file, m, r, rfl, hsender, .inl rfl⟩

/-- The receiver's machine names the peer its file does. -/
theorem Answers.peerKey (hr : Answers cfg file m r) (sig : Sig) :
    (r.opened sig).machine.peerKey = file.peer := by
  change r.channel.keys.1 = file.peer
  rw [hr.checked.terms.keys, hr.checked.sender]

/-- The ready of a channel sent again. -/
theorem ReceiverMove.ready {com : CommitMessage} (hr : Answers cfg file m r)
    (hat : ReceiverAt cfg (some (file, m, r)) (some com) h) :
    ReceiverMove cfg (some (file, m, r)) (some (file, m, r)) (some com) (some com) h
      (h.keep (if (r.opened com.sig).machine.role = Side.b then
        [((r.opened com.sig).machine.peerKey, .ready (r.opened com.sig).machine.id)] else [])) := by
  refine .keep hat fun x hx => ?_
  rw [if_pos (show (r.opened com.sig).machine.role = Side.b from rfl), hr.peerKey,
    List.mem_singleton] at hx
  subst hx
  exact ⟨file, m, r, rfl, rfl, .inr ⟨rfl, rfl⟩⟩

theorem ReceiverAt.unasked (hat : ReceiverAt cfg q c h) (hq : q = none) : c = none := by
  cases hat with
  | idle => rfl
  | accepted hr | adopted hr hc | doubled hr hc => cases hq

/-- A receiver that has the channel took a commit. -/
theorem ReceiverAt.taken (hat : ReceiverAt cfg q c h) (hsome : h.channel.isSome = true) :
    c.isSome = true := by
  cases hat with
  | idle | accepted hr => cases hsome
  | adopted hr hc | doubled hr hc => rfl

/-- The channel of a receiver that took a commit, and the answer it is made of. -/
theorem ReceiverAt.channel_of {com : CommitMessage}
    (hat : ReceiverAt cfg (some (file, m, r)) (some com) h) :
    Answers cfg file m r ∧ r.commit com = .ok ((r.opened com.sig).machine, r.id) ∧
      h.channel = some (r.opened com.sig).machine ∧
      h.disk.channel = some (r.opened com.sig).machine.snapshot := by
  cases hat with
  | adopted hr hc | doubled hr hc => exact ⟨hr, hc, rfl, rfl⟩

/-- **What a call of the receiver's does.** It answers one `open`, and takes one
commit, from the peer whose `open` it answered. -/
theorem ReceiverAt.effect (hat : ReceiverAt cfg q c h) (cause : Cause) :
    ∃ q' c', ReceiverMove cfg q q' c c' h (Handshake.effect cfg h cause) ∧
      (q' = q ∨ q = none ∧ ∃ file m r fr, q' = some (file, m, r) ∧
        cause = .message file.peer (.open m) fr) ∧
      (c' = c ∨ ∃ file m r com fr, q' = some (file, m, r) ∧ c' = some com ∧
        cause = .message file.peer (.commit com) fr) := by
  cases cause with
  | tick =>
    refine ⟨q, c, ?_, .inl rfl, .inl rfl⟩
    cases hat with
    | idle => exact .quiet .idle
    | accepted hr => exact .again (.accepted hr) rfl
    | adopted hr hc => exact .quiet (.adopted hr hc)
    | doubled hr hc => exact .again (.doubled hr hc) rfl
  | message sender message fr =>
    unfold Handshake.effect onMessage
    dsimp only
    split
    · exact ⟨q, c, .quiet hat, .inl rfl, .inl rfl⟩
    rename_i hsender
    cases hhandle : handle cfg h sender fr message with
    | err _ => exact ⟨q, c, .quiet hat, .inl rfl, .inl rfl⟩
    | panic => exact ⟨q, c, .quiet hat, .inl rfl, .inl rfl⟩
    | ok e =>
      dsimp only
      cases hat with
      | idle =>
        cases message with
        | «open» m =>
          unfold handle onOpen noHost at hhandle
          obtain ⟨_, -, hhandle⟩ := Res.bind_eq_ok.mp hhandle
          obtain ⟨_, -, hhandle⟩ := Res.bind_eq_ok.mp hhandle
          obtain ⟨⟨r, response⟩, hr, hhandle⟩ := Res.bind_eq_ok.mp hhandle
          rw [ofOpening_eq_ok] at hr
          have hresponse := (ReceiverOpening.accept_ok hr).2
          subst hresponse
          cases hhandle
          have hanswers : Answers cfg ⟨.receiver, sender, fr, none, some ⟨m, cfg.minDelay⟩⟩ m r :=
            ⟨rfl, cfg.minDelay, rfl, hr⟩
          refine ⟨some (_, m, r), none, ⟨.accepted hanswers, fun k => ?_, fun x hx => ?_⟩,
            .inr ⟨rfl, _, m, r, fr, rfl, rfl⟩, .inl rfl⟩
          · rcases k with - | k
            · exact ⟨_, _, _, .inl ⟨rfl, rfl⟩, .idle, rfl⟩
            · refine ⟨_, _, _, .inr ⟨rfl, rfl⟩, .accepted hanswers, ?_⟩
              rw [List.take_succ_cons, List.take_nil]
              rfl
          · rw [List.mem_singleton] at hx
            subst hx
            exact ⟨_, m, r, rfl, rfl, .inl rfl⟩
        | accept m | commit m | ready id | sync m =>
          cases hhandle
          exact ⟨none, none, .quiet .idle, .inl rfl, .inl rfl⟩
      | accepted hr =>
        rename_i file m r
        have hpeer : sender = file.peer := by
          unfold wrongSender at hsender
          simpa using Eq.symm (by simpa using hsender)
        subst hpeer
        cases message with
        | «open» m' | sync m' =>
          cases hhandle
          exact ⟨_, _, .again (.accepted hr) rfl, .inl rfl, .inl rfl⟩
        | accept m' | ready id =>
          cases hhandle
          exact ⟨_, _, .quiet (.accepted hr), .inl rfl, .inl rfl⟩
        | commit com =>
          unfold handle onCommit at hhandle
          obtain ⟨⟨x, id⟩, hx, hhandle⟩ := Res.bind_eq_ok.mp hhandle
          rw [ofOpening_eq_ok] at hx
          obtain ⟨-, hnew, -, rfl⟩ := ReceiverOpening.handed hr.checked hx
          have hmachine := new_eq_machine hnew
          subst hmachine
          cases hhandle
          refine ⟨some (file, m, r), some com, ⟨.adopted hr hx, fun k => ?_, fun x hx => ?_⟩,
            .inl rfl, .inr ⟨file, m, r, com, fr, rfl, rfl, rfl⟩⟩
          · rcases k with - | - | k
            · exact ⟨_, _, _, .inl ⟨rfl, rfl⟩, .accepted hr, rfl⟩
            · exact ⟨_, _, _, .inr ⟨rfl, rfl⟩, .doubled hr hx, rfl⟩
            · refine ⟨_, _, _, .inr ⟨rfl, rfl⟩, .adopted hr hx, ?_⟩
              unfold Handshake.adopt
              rw [List.take_succ_cons, List.take_succ_cons, List.take_nil]
              rfl
          · unfold Handshake.adopt at hx
            rw [List.mem_singleton] at hx
            subst hx
            exact ⟨file, m, r, rfl, hr.peerKey com.sig, .inr ⟨rfl, rfl⟩⟩
      | adopted hr hc =>
        cases message with
        | commit com =>
          cases hhandle
          exact ⟨_, _, .ready hr (.adopted hr hc), .inl rfl, .inl rfl⟩
        | «open» m | accept m | ready id | sync m =>
          cases hhandle
          exact ⟨_, _, .quiet (.adopted hr hc), .inl rfl, .inl rfl⟩
      | doubled hr hc =>
        cases message with
        | commit com =>
          cases hhandle
          exact ⟨_, _, .ready hr (.doubled hr hc), .inl rfl, .inl rfl⟩
        | «open» m | accept m | ready id | sync m =>
          cases hhandle
          exact ⟨_, _, .quiet (.doubled hr hc), .inl rfl, .inl rfl⟩

end

/-! ### The two together -/

section

variable {cfg : Side → Config} {part : FunderPart} {fresh : Fresh} {f : FunderOpening}

/-- What holds between the hosts and what they have sent. -/
structure Stands (cfg : Side → Config) (part : FunderPart) (fresh : Fresh) (f : FunderOpening)
    (g : Option (AcceptMessage × AcceptedFunder))
    (q : Option (OpeningFile × OpenMessage × ReceiverOpening)) (c : Option CommitMessage)
    (s : System) : Prop where
  funder : FunderAt f (funderFile (cfg .b).me part fresh) fresh.aux g (s.hosts .a)
  receiver : ReceiverAt (cfg .b) q c (s.hosts .b)
  fromFunder : ∀ p ∈ s.sent, p.from = .a → p.recipient = (cfg .b).me ∧
    (p.message = .open f.message ∨ ∃ m acc, g = some (m, acc) ∧ p.message = .commit acc.commit)
  fromReceiver : ∀ p ∈ s.sent, p.from = .b → ∃ file m r, q = some (file, m, r) ∧
    p.recipient = file.peer ∧
      (p.message = .accept r.message ∨ p.message = .ready r.id ∧ c.isSome = true)
  answered : ∀ m acc, g = some (m, acc) → ∃ file om r, q = some (file, om, r) ∧
    file.peer = (cfg .a).me ∧ m = r.message
  asked : ∀ file m r, q = some (file, m, r) → file.peer = (cfg .a).me → m = f.message
  committed : ∀ file m r com, q = some (file, m, r) → file.peer = (cfg .a).me → c = some com →
    ∃ am acc, g = some (am, acc) ∧ com = acc.commit
  adopted : (s.hosts .a).disk.channel.isSome = true → c.isSome = true

namespace Stands

variable {g g' : Option (AcceptMessage × AcceptedFunder)}
  {q q' : Option (OpeningFile × OpenMessage × ReceiverOpening)} {c c' : Option CommitMessage}
  {s : System}

/-- The funder stands elsewhere, and it took its answer from the receiver. -/
theorem funder_to (h : Stands cfg part fresh f g q c s) {host : Host} {sent : List Packet}
    (hat : FunderAt f (funderFile (cfg .b).me part fresh) fresh.aux g' host)
    (hg : ∀ m acc, g = some (m, acc) → g' = some (m, acc))
    (hanswer : ∀ m acc, g' = some (m, acc) → ∃ file om r, q = some (file, om, r) ∧
      file.peer = (cfg .a).me ∧ m = r.message)
    (hsent : ∀ p ∈ sent, p ∈ s.sent ∨ p.from = .a ∧ p.recipient = (cfg .b).me ∧
      (p.message = .open f.message ∨
        ∃ m acc, g' = some (m, acc) ∧ p.message = .commit acc.commit))
    (hadopted : host.disk.channel.isSome = true → c.isSome = true) :
    Stands cfg part fresh f g' q c ⟨Function.update s.hosts .a host, sent⟩ where
  funder := by
    dsimp only
    rw [Function.update_self]
    exact hat
  receiver := by
    dsimp only
    rw [Function.update_of_ne Side.noConfusion]
    exact h.receiver
  fromFunder p hp hfrom := by
    rcases hsent p hp with hp | ⟨-, hto, hm⟩
    · obtain ⟨hto, hm | ⟨m, acc, hsome, hm⟩⟩ := h.fromFunder p hp hfrom
      · exact ⟨hto, .inl hm⟩
      · exact ⟨hto, .inr ⟨m, acc, hg m acc hsome, hm⟩⟩
    · exact ⟨hto, hm⟩
  fromReceiver p hp hfrom := by
    rcases hsent p hp with hp | ⟨hfrom', -⟩
    · exact h.fromReceiver p hp hfrom
    · rw [hfrom'] at hfrom
      cases hfrom
  answered := hanswer
  asked := h.asked
  committed file m r com hq hpeer hc := by
    obtain ⟨am, acc, hsome, hcom⟩ := h.committed file m r com hq hpeer hc
    exact ⟨am, acc, hg am acc hsome, hcom⟩
  adopted := by
    dsimp only
    rw [Function.update_self]
    exact hadopted

/-- The receiver stands elsewhere, and what it took of the funder the funder sent. -/
theorem receiver_to (h : Stands cfg part fresh f g q c s) {host : Host} {sent : List Packet}
    (hat : ReceiverAt (cfg .b) q' c' host)
    (hq : ∀ file m r, q = some (file, m, r) → q' = some (file, m, r))
    (hc : c.isSome = true → c'.isSome = true)
    (hasked : ∀ file m r, q' = some (file, m, r) → file.peer = (cfg .a).me → m = f.message)
    (hcommitted : ∀ file m r com, q' = some (file, m, r) → file.peer = (cfg .a).me →
      c' = some com → ∃ am acc, g = some (am, acc) ∧ com = acc.commit)
    (hsent : ∀ p ∈ sent, p ∈ s.sent ∨ p.from = .b ∧ ∃ file m r, q' = some (file, m, r) ∧
      p.recipient = file.peer ∧
        (p.message = .accept r.message ∨ p.message = .ready r.id ∧ c'.isSome = true)) :
    Stands cfg part fresh f g q' c' ⟨Function.update s.hosts .b host, sent⟩ where
  funder := by
    dsimp only
    rw [Function.update_of_ne Side.noConfusion]
    exact h.funder
  receiver := by
    dsimp only
    rw [Function.update_self]
    exact hat
  fromFunder p hp hfrom := by
    rcases hsent p hp with hp | ⟨hfrom', -⟩
    · exact h.fromFunder p hp hfrom
    · rw [hfrom'] at hfrom
      cases hfrom
  fromReceiver p hp hfrom := by
    rcases hsent p hp with hp | ⟨-, hnew⟩
    · obtain ⟨file, m, r, hsome, hto, hm | ⟨hm, hready⟩⟩ := h.fromReceiver p hp hfrom
      · exact ⟨file, m, r, hq file m r hsome, hto, .inl hm⟩
      · exact ⟨file, m, r, hq file m r hsome, hto, .inr ⟨hm, hc hready⟩⟩
    · exact hnew
  answered m acc hsome := by
    obtain ⟨file, om, r, hq', hrest⟩ := h.answered m acc hsome
    exact ⟨file, om, r, hq file om r hq', hrest⟩
  asked := hasked
  committed := hcommitted
  adopted hsome := by
    dsimp only at hsome
    rw [Function.update_of_ne Side.noConfusion] at hsome
    exact hc (h.adopted hsome)

/-- A message of the receiver's that reached the funder. -/
theorem to_funder (h : Stands cfg part fresh f g q c s) {m : Message} {fr : Fresh}
    (hocc : s.Occurs cfg .a (.message (cfg .b).me m fr)) :
    (∃ file om r, q = some (file, om, r) ∧ (cfg .a).me = file.peer ∧ m = .accept r.message) ∨
      ((∃ id, m = .ready id) ∨ ∃ sync, m = .sync sync) ∧ c.isSome = true := by
  rcases hocc rfl with hsent | ⟨hsync, hsome⟩
  · obtain ⟨file, om, r, hq, hto, hm | ⟨hm, hc⟩⟩ := h.fromReceiver _ hsent rfl
    · exact .inl ⟨file, om, r, hq, hto, hm⟩
    · exact .inr ⟨.inl ⟨r.id, hm⟩, hc⟩
  · exact .inr ⟨.inr hsync, h.receiver.taken hsome⟩

/-- The receiver opens nothing towards the funder. -/
theorem not_open (h : Stands cfg part fresh f g q c s) {cause : Cause}
    (hocc : s.Occurs cfg .a cause) (m : OpenMessage) (fr : Fresh) :
    cause ≠ .message (cfg .b).me (.open m) fr := by
  intro heq
  rw [heq] at hocc
  rcases h.to_funder hocc with ⟨_, _, _, -, -, hm⟩ | ⟨⟨_, hm⟩ | ⟨_, hm⟩, -⟩ <;> cases hm

/-- A message of the funder's that reached the receiver. -/
theorem to_receiver (h : Stands cfg part fresh f g q c s) {m : Message} {fr : Fresh}
    (hocc : s.Occurs cfg .b (.message (cfg .a).me m fr)) :
    m = .open f.message ∨ (∃ am acc, g = some (am, acc) ∧ m = .commit acc.commit) ∨
      ∃ sync, m = .sync sync := by
  rcases hocc rfl with hsent | ⟨hsync, -⟩
  · rcases (h.fromFunder _ hsent rfl).2 with hm | hm
    · exact .inl hm
    · exact .inr (.inl hm)
  · exact .inr (.inr hsync)

/-- What either host does keeps the two apart or agreeing. -/
theorem step {s' : System}
    (hf : FunderOpening.propose part.params (keysOf (cfg .a) fresh) (cfg .b).me (cfg .a).rules
      fresh.aux = .ok (f, f.message))
    (h : Stands cfg part fresh f g q c s) (hstep : Step cfg s s') :
    ∃ g' q' c', Stands cfg part fresh f g' q' c' s' := by
  have hproposed := (FunderOpening.propose_ok hf).1
  -- what a call of the funder's takes of the receiver
  have hfunder : ∀ {cause : Cause}, s.Occurs cfg .a cause → ∃ g',
      FunderMove f (funderFile (cfg .b).me part fresh) fresh.aux (cfg .b).me g g' (s.hosts .a)
        (effect (cfg .a) (s.hosts .a) cause) ∧
      (∀ m acc, g = some (m, acc) → g' = some (m, acc)) ∧
      (∀ m acc, g' = some (m, acc) → ∃ file om r, q = some (file, om, r) ∧
        file.peer = (cfg .a).me ∧ m = r.message) ∧
      ((effect (cfg .a) (s.hosts .a) cause).Still (s.hosts .a) ∨ c.isSome = true) := by
    intro cause hocc
    obtain ⟨g', hmove, hg, hstill⟩ := h.funder.effect hproposed cause (h.not_open hocc)
    refine ⟨g', hmove, ?_, ?_, ?_⟩
    · intro m acc hsome
      rcases hg with rfl | ⟨hnone, -⟩
      · exact hsome
      · rw [hnone] at hsome
        cases hsome
    · intro m acc hsome
      rcases hg with rfl | ⟨-, m', acc', fr, hsome', hcause⟩
      · exact h.answered m acc hsome
      · rw [hsome'] at hsome
        cases hsome
        rw [hcause] at hocc
        rcases h.to_funder hocc with ⟨file, om, r, hq, hpeer, hm⟩ | ⟨⟨_, hm⟩ | ⟨_, hm⟩, -⟩
        · cases hm
          exact ⟨file, om, r, hq, hpeer.symm, rfl⟩
        · cases hm
        · cases hm
    · rcases hstill with hstill | ⟨m, fr, hcause, hm⟩
      · exact .inl hstill
      · rw [hcause] at hocc
        rcases h.to_funder hocc with ⟨_, _, _, -, -, hm'⟩ | ⟨-, hc⟩
        · rw [hm'] at hm
          rcases hm with ⟨_, hm⟩ | ⟨_, hm⟩ <;> cases hm
        · exact .inr hc
  -- what a call of the receiver's takes of the funder
  have hreceiver : ∀ {cause : Cause}, s.Occurs cfg .b cause → ∃ q' c',
      ReceiverMove (cfg .b) q q' c c' (s.hosts .b) (effect (cfg .b) (s.hosts .b) cause) ∧
      (∀ file m r, q = some (file, m, r) → q' = some (file, m, r)) ∧
      (c.isSome = true → c'.isSome = true) ∧
      (∀ file m r, q' = some (file, m, r) → file.peer = (cfg .a).me → m = f.message) ∧
      ∀ file m r com, q' = some (file, m, r) → file.peer = (cfg .a).me → c' = some com →
        ∃ am acc, g = some (am, acc) ∧ com = acc.commit := by
    intro cause hocc
    obtain ⟨q', c', hmove, hq, hc⟩ := h.receiver.effect cause
    refine ⟨q', c', hmove, ?_, ?_, ?_, ?_⟩
    · intro file m r hsome
      rcases hq with rfl | ⟨hq, -⟩
      · exact hsome
      · rw [hq] at hsome
        cases hsome
    · intro hsome
      rcases hc with rfl | ⟨_, _, _, com, _, -, hcom, -⟩
      · exact hsome
      · rw [hcom]
        rfl
    · intro file m r hsome hpeer
      rcases hq with rfl | ⟨-, file', m', r', fr, hq', hcause⟩
      · exact h.asked file m r hsome hpeer
      · rw [hq'] at hsome
        cases hsome
        rw [hcause, hpeer] at hocc
        rcases h.to_receiver hocc with hm | ⟨_, _, -, hm⟩ | ⟨_, hm⟩
        · cases hm
          rfl
        · cases hm
        · cases hm
    · intro file m r com hsome hpeer hcom
      rcases hc with rfl | ⟨file', m', r', com', fr, hq', hc', hcause⟩
      · rcases hq with rfl | ⟨hq, -⟩
        · exact h.committed file m r com hsome hpeer hcom
        · rw [h.receiver.unasked hq] at hcom
          cases hcom
      · rw [hq'] at hsome
        cases hsome
        rw [hc'] at hcom
        cases hcom
        rw [hcause, hpeer] at hocc
        rcases h.to_receiver hocc with hm | ⟨am, acc, hg, hm⟩ | ⟨_, hm⟩
        · cases hm
        · cases hm
          exact ⟨am, acc, hg, rfl⟩
        · cases hm
  have hdisk : ∀ {g : Option (AcceptMessage × AcceptedFunder)} {host : Host},
      FunderAt f (funderFile (cfg .b).me part fresh) fresh.aux g host →
      host.disk.channel.isSome = host.channel.isSome := fun hat => by cases hat <;> rfl
  cases hstep with
  | act side cause hocc =>
    cases side with
    | a =>
      obtain ⟨g', hmove, hg, hanswer, hstill⟩ := hfunder hocc
      refine ⟨g', q, c, h.funder_to hmove.after hg hanswer (fun p hp => ?_) fun hsome => ?_⟩
      · rcases List.mem_append.mp hp with hp | hp
        · exact .inl hp
        · obtain ⟨x, hx, rfl⟩ := List.mem_map.mp hp
          exact .inr ⟨rfl, hmove.sends x hx⟩
      · rcases hstill with hstill | hc
        · rw [hdisk hmove.after] at hsome
          refine h.adopted ?_
          rw [hdisk h.funder, ← hstill.1]
          exact hsome
        · exact hc
    | b =>
      obtain ⟨q', c', hmove, hq, hc, hasked, hcommitted⟩ := hreceiver hocc
      refine ⟨g, q', c', h.receiver_to hmove.after hq hc hasked hcommitted fun p hp => ?_⟩
      rcases List.mem_append.mp hp with hp | hp
      · exact .inl hp
      · obtain ⟨x, hx, rfl⟩ := List.mem_map.mp hp
        exact .inr ⟨rfl, hmove.sends x hx⟩
  | crash side cause k hocc hl =>
    cases side with
    | a =>
      obtain ⟨g', hmove, hg, hanswer, hstill⟩ := hfunder hocc
      obtain ⟨g₁, h₁, hg₁, hat, hd⟩ := hmove.stopped k
      have hl₁ := hl
      rw [← hd] at hl₁
      have hat' := hat.load hf hl₁
      have hload : ∀ {host : Host}, load (cfg .a) h₁.disk = .ok host → host.disk = h₁.disk := by
        intro host hhost
        obtain ⟨_, _, -, -, rfl⟩ := load_ok hhost
        rfl
      refine ⟨g₁, q, c, h.funder_to hat' ?_ ?_ (fun p hp => .inl hp) fun hsome => ?_⟩
      · rcases hg₁ with rfl | rfl
        · exact fun _ _ hsome => hsome
        · exact hg
      · rcases hg₁ with rfl | rfl
        · exact h.answered
        · exact hanswer
      · rcases hstill with hstill | hc
        · rw [hload hl₁, hd, hstill.2 k] at hsome
          exact h.adopted hsome
        · exact hc
    | b =>
      obtain ⟨q', c', hmove, hq, hc, hasked, hcommitted⟩ := hreceiver hocc
      obtain ⟨q₁, c₁, h₁, hq₁, hat, hd⟩ := hmove.stopped k
      rw [← hd] at hl
      have hat' := hat.load hl
      rcases hq₁ with ⟨rfl, rfl⟩ | ⟨rfl, rfl⟩
      · exact ⟨g, q₁, c₁, h.receiver_to hat' (fun _ _ _ hsome => hsome) (fun hsome => hsome) h.asked
          h.committed fun p hp => .inl hp⟩
      · exact ⟨g, q₁, c₁, h.receiver_to hat' hq hc hasked hcommitted fun p hp => .inl hp⟩

end Stands

/-- Every state reached stands so, with the funder's one proposal. -/
theorem Reached.stands {s : System} (h : Reached cfg part fresh s) : ∃ f,
    FunderOpening.propose part.params (keysOf (cfg .a) fresh) (cfg .b).me (cfg .a).rules
      fresh.aux = .ok (f, f.message) ∧ ∃ g q c, Stands cfg part fresh f g q c s := by
  induction h with
  | start he =>
    unfold openChannel at he
    obtain ⟨_, -, he⟩ := Res.bind_eq_ok.mp he
    obtain ⟨_, -, he⟩ := Res.bind_eq_ok.mp he
    obtain ⟨⟨f, m⟩, hf, he⟩ := Res.bind_eq_ok.mp he
    rw [ofOpening_eq_ok] at hf
    obtain rfl := (FunderOpening.propose_ok hf).2
    cases he
    refine ⟨f, hf, none, none, none, ?_, .idle, ?_, ?_, ?_, ?_, ?_, ?_⟩
    · exact .proposed
    · intro p hp _
      obtain rfl := List.mem_singleton.mp hp
      exact ⟨rfl, .inl rfl⟩
    · intro p hp hfrom
      obtain rfl := List.mem_singleton.mp hp
      cases hfrom
    · exact fun _ _ hsome => by cases hsome
    · exact fun _ _ _ hsome => by cases hsome
    · exact fun _ _ _ _ hsome => by cases hsome
    · exact fun hsome => by cases hsome
  | step hreached hstep ih =>
    obtain ⟨f, hf, g, q, c, hstands⟩ := ih
    exact ⟨f, hf, hstands.step hf hstep⟩

/-- The two machines of one exchange on the funder's terms: starts of runs that
mirror each other, each with the commitment the other rebuilds for it. -/
structure Ends (cfg : Side → Config) (params : OpenParams) (oA oB : Opened)
    (mA mB : ChannelMachine) : Prop where
  terms : Terms oA.id oA.channel oA.initialState params (cfg .a).me (cfg .b).me
  mirror : Mirror oA oB
  ready : oA.Ready ∧ oB.Ready
  made : ChannelMachine.new oA = .ok mA ∧ ChannelMachine.new oB = .ok mB
  keys : oA.channelKey = (cfg .a).key ∧ oB.channelKey = (cfg .b).key
  commitments : mA.theirCommitment 0 oA.initialState = mB.myCommitment 0 ∧
    mB.theirCommitment 0 oB.initialState = mA.myCommitment 0

/-- A funder and a receiver that took each other's answers have the two ends. -/
theorem Ends.of_exchange
    (hsym : ∀ r b : SecretKey, Hitch.revocationPub (Hitch.public r) b =
      Hitch.revocationPub (Hitch.public b) r)
    (hf : FunderOpening.propose part.params (keysOf (cfg .a) fresh) (cfg .b).me (cfg .a).rules
      fresh.aux = .ok (f, f.message)) {file : OpeningFile} {r : ReceiverOpening}
    {acc : AcceptedFunder} {com : CommitMessage}
    (hacc : f.accept r.message fresh.aux = .ok (acc, acc.commit))
    (hr : Answers (cfg .b) file f.message r)
    (hcom : r.commit com = .ok ((r.opened com.sig).machine, r.id)) :
    Ends cfg part.params acc.opened (r.opened com.sig) acc.opened.machine
      (r.opened com.sig).machine := by
  have hproposed := (FunderOpening.propose_ok hf).1
  have hchecked := (FunderOpening.accept_ok hacc).1
  have hmirror : Mirror acc.opened (r.opened com.sig) :=
    mirror_of_exchange hproposed hchecked hr.checked
  obtain ⟨hready, hmachine⟩ := AcceptedFunder.handed hproposed hchecked
  obtain ⟨hready', hnew', -⟩ := ReceiverOpening.handed hr.checked hcom
  unfold AcceptedFunder.machine at hmachine
  rw [ofMachine_eq_ok] at hmachine
  refine ⟨?_, hmirror, ⟨hready, hready'⟩, ⟨hmachine, hnew'⟩, ⟨?_, ?_⟩, hmirror.commitments hsym⟩
  · unfold AcceptedFunder.opened
    rw [hchecked.opening]
    exact hproposed.terms
  · change acc.opening.keys.channel = (cfg .a).key
    rw [hchecked.opening, hproposed.held]
    rfl
  · change r.keys.channel = (cfg .b).key
    rw [hr.checked.held]
    rfl

/-- **The funder's channel is one the receiver has.** Whatever is lost, repeated
or reordered, wherever either host stops, and whatever others send: once the
funder has the channel (and so may broadcast its funding), the receiver has
saved its own end of it, on the terms the funder asked for. -/
theorem hosts_agree
    (hsym : ∀ r b : SecretKey, Hitch.revocationPub (Hitch.public r) b =
      Hitch.revocationPub (Hitch.public b) r)
    {s : System} (h : Reached cfg part fresh s) {mA : ChannelMachine}
    (hA : (s.hosts .a).channel = some mA) :
    ∃ mB oA oB, (s.hosts .b).channel = some mB ∧ (s.hosts .b).disk.channel = some mB.snapshot ∧
      Ends cfg part.params oA oB mA mB := by
  obtain ⟨f, hf, g, q, c, hs⟩ := h.stands
  obtain ⟨m, acc, hacc, rfl, rfl⟩ := hs.funder.channel_of hA
  have hc := hs.adopted (hs.funder.disk_of hA)
  obtain ⟨com, rfl⟩ := Option.isSome_iff_exists.mp hc
  obtain ⟨file, om, r, rfl, hpeer, rfl⟩ := hs.answered m acc rfl
  obtain rfl := hs.asked file om r rfl hpeer
  obtain ⟨hr, hcom, hchannel, hdisk⟩ := hs.receiver.channel_of
  exact ⟨_, _, _, hchannel, hdisk, .of_exchange hsym hf hacc hr hcom⟩

/-! ### Every stop is recovered from -/

omit [OpeningHitch] in
/-- A machine just handed over passes its own checks. -/
theorem handed_restores [Hitch] {o : Opened} (h : o.Ready)
    (hnew : ChannelMachine.new o = .ok o.machine) :
    restore o.machine.snapshot = .ok o.machine := by
  have hbuilt := machine_built h.theirs hnew
  have htracked : Tracked True o.machine := machine_tracked o
  exact restore_ok ⟨h.valid.id, h.key, h.valid.channel, machine_points o,
    machine_conserved h.valid, machine_recorded o, machine_placed o, hbuilt,
    fun b hb => by cases hb⟩ htracked.next htracked.present

theorem loadChannel_ok {own : Config} {o : Opened} (h : o.Ready)
    (hnew : ChannelMachine.new o = .ok o.machine) (hkey : o.channelKey = own.key) :
    loadChannel own (some o.machine.snapshot) = .ok (some o.machine) := by
  have hme : o.channel.key o.role = own.me := by
    rw [← h.key, hkey]
    rfl
  unfold loadChannel
  dsimp only
  rw [handed_restores h hnew]
  change Res.refuseIf (o.channel.key o.role != own.me) _ >>= _ = _
  rw [hme, bne_self_eq_false]
  rfl

theorem FunderAt.loads {own : Config} {peer : Point}
    (hf : FunderOpening.propose part.params (keysOf own fresh) peer own.rules fresh.aux =
      .ok (f, f.message)) {g : Option (AcceptMessage × AcceptedFunder)} {h : Host}
    (hat : FunderAt f (funderFile peer part fresh) fresh.aux g h) :
    ∃ h', Handshake.load own h.disk = .ok h' := by
  have hproposed := (FunderOpening.propose_ok hf).1
  have hchannel : ∀ {m : AcceptMessage} {acc : AcceptedFunder},
      f.accept m fresh.aux = .ok (acc, acc.commit) →
      loadChannel own (some acc.opened.machine.snapshot) = .ok (some acc.opened.machine) := by
    intro m acc hacc
    have hchecked := (FunderOpening.accept_ok hacc).1
    obtain ⟨hready, hmachine⟩ := AcceptedFunder.handed hproposed hchecked
    unfold AcceptedFunder.machine at hmachine
    rw [ofMachine_eq_ok] at hmachine
    refine loadChannel_ok hready hmachine ?_
    change acc.opening.keys.channel = own.key
    rw [hchecked.opening, hproposed.held]
    rfl
  unfold Handshake.load loadOpening
  cases hat with
  | proposed =>
    dsimp only
    rw [rebuild_proposed hf]
    exact ⟨_, rfl⟩
  | accepted hacc =>
    dsimp only
    rw [rebuild_accepted hf hacc]
    exact ⟨_, rfl⟩
  | adopted hacc =>
    dsimp only
    rw [hchannel hacc]
    exact ⟨_, rfl⟩
  | doubled hacc =>
    dsimp only
    rw [hchannel hacc, rebuild_accepted hf hacc]
    exact ⟨_, rfl⟩

theorem ReceiverAt.loads {own : Config} {q : Option (OpeningFile × OpenMessage × ReceiverOpening)}
    {c : Option CommitMessage} {h : Host} (hat : ReceiverAt own q c h) :
    ∃ h', Handshake.load own h.disk = .ok h' := by
  have hchannel : ∀ {file : OpeningFile} {m : OpenMessage} {r : ReceiverOpening}
      {c : CommitMessage}, Answers own file m r →
      r.commit c = .ok ((r.opened c.sig).machine, r.id) →
      loadChannel own (some (r.opened c.sig).machine.snapshot) =
        .ok (some (r.opened c.sig).machine) := by
    intro file m r c hr hc
    obtain ⟨hready, hnew, -⟩ := ReceiverOpening.handed hr.checked hc
    refine loadChannel_ok hready hnew ?_
    change r.keys.channel = own.key
    rw [hr.checked.held]
    rfl
  unfold Handshake.load loadOpening
  cases hat with
  | idle => exact ⟨_, rfl⟩
  | accepted hr =>
    dsimp only
    rw [rebuild_receiver hr]
    exact ⟨_, rfl⟩
  | adopted hr hc =>
    dsimp only
    rw [hchannel hr hc]
    exact ⟨_, rfl⟩
  | doubled hr hc =>
    dsimp only
    rw [hchannel hr hc, rebuild_receiver hr]
    exact ⟨_, rfl⟩

/-- **A host that stops can always start again.** Whatever it was doing and
whichever of its writes were made, its files load. -/
theorem load_returns {s : System} (h : Reached cfg part fresh s) (side : Side) (cause : Cause)
    (hocc : s.Occurs cfg side cause) (k : ℕ) :
    ∃ host, load (cfg side) ((s.hosts side).disk.writes
      ((effect (cfg side) (s.hosts side) cause).writes.take k)) = .ok host := by
  obtain ⟨f, hf, g, q, c, hs⟩ := h.stands
  cases side with
  | a =>
    obtain ⟨g', hmove, -⟩ := hs.funder.effect (FunderOpening.propose_ok hf).1 cause
      (hs.not_open hocc)
    obtain ⟨g₁, h₁, -, hat, hd⟩ := hmove.stopped k
    rw [← hd]
    exact hat.loads hf
  | b =>
    obtain ⟨q', c', hmove, -⟩ := hs.receiver.effect cause
    obtain ⟨q₁, c₁, h₁, -, hat, hd⟩ := hmove.stopped k
    rw [← hd]
    exact hat.loads

/-! ### A handshake can be completed -/

theorem Reached.steps {s s' : System} (h : Reached cfg part fresh s)
    (hsteps : Relation.ReflTransGen (Step cfg) s s') : Reached cfg part fresh s' := by
  induction hsteps with
  | refl => exact h
  | tail _ hstep ih => exact ih.step hstep

/-- A message is asked for again, and arrives. -/
theorem resent (cfg : Side → Config) (s : System) (side : Side) {m : Message} (fr : Fresh)
    (hm : ((cfg side.other).me, m) ∈ (tickOpenings (s.hosts side)).sends) :
    ∃ s', Relation.ReflTransGen (Step cfg) s s' ∧ s'.hosts side = s.hosts side ∧
      s'.hosts side.other = (s.hosts side.other).after
        (effect (cfg side.other) (s.hosts side.other) (.message (cfg side).me m fr)) ∧
      ∀ x ∈ (effect (cfg side.other) (s.hosts side.other) (.message (cfg side).me m fr)).sends,
        ⟨side.other, x.1, x.2⟩ ∈ s'.sent := by
  have hne : side.other ≠ side := by cases side <;> exact Side.noConfusion
  have hback : side.other.other = side := by cases side <;> rfl
  set s₁ := s.act side (effect (cfg side) (s.hosts side) .tick) with hs₁
  have hhosts : s₁.hosts = s.hosts := Function.update_eq_self side s.hosts
  have hocc : s₁.Occurs cfg side.other (.message (cfg side).me m fr) := by
    intro _
    left
    rw [hback]
    exact List.mem_append_right _ (List.mem_map.mpr ⟨_, hm, rfl⟩)
  refine ⟨s₁.act side.other (effect (cfg side.other) (s₁.hosts side.other)
    (.message (cfg side).me m fr)), ?_, ?_, ?_, ?_⟩
  · exact (Relation.ReflTransGen.single (.act side .tick trivial)).tail (.act side.other _ hocc)
  · refine (Function.update_of_ne hne.symm _ _).trans ?_
    rw [hhosts]
  · refine (Function.update_self _ _ _).trans ?_
    rw [hhosts]
  · intro x hx
    rw [hhosts]
    exact List.mem_append_right _ (List.mem_map.mpr ⟨x, hx, rfl⟩)

/-- What was sent to the funder arrives. -/
theorem arrives (cfg : Side → Config) (s : System) {m : Message} (fr : Fresh) (hm : ⟨.b, (cfg .a).me, m⟩ ∈ s.sent) :
    ∃ s', Relation.ReflTransGen (Step cfg) s s' ∧ s'.hosts .a = (s.hosts .a).after
      (effect (cfg .a) (s.hosts .a) (.message (cfg .b).me m fr)) :=
  ⟨_, .single (.act .a (.message (cfg .b).me m fr) fun _ => .inl hm), by
    exact Function.update_self Side.a _ s.hosts⟩

theorem FunderAt.proposed_of {file : Option AcceptMessage → OpeningFile} {aux : Hash256}
    {g : Option (AcceptMessage × AcceptedFunder)} {h : Host} (hat : FunderAt f file aux g h)
    (hg : g = none) :
    h = ⟨some ⟨file none, .proposed f⟩, none, some (file none), none⟩ := by
  cases hat with
  | proposed => rfl
  | accepted hacc | adopted hacc | doubled hacc => cases hg

theorem FunderAt.accepted_of {file : Option AcceptMessage → OpeningFile} {aux : Hash256}
    {m : AcceptMessage} {acc : AcceptedFunder} {h : Host}
    (hat : FunderAt f file aux (some (m, acc)) h) (hnone : h.channel = none) :
    h = ⟨some ⟨file (some m), .accepted acc⟩, none, some (file (some m)), none⟩ := by
  cases hat with
  | accepted hacc => rfl
  | adopted hacc | doubled hacc => cases hnone

theorem FunderAt.took {file : Option AcceptMessage → OpeningFile} {aux : Hash256}
    {m : AcceptMessage} {acc : AcceptedFunder} {h : Host}
    (hat : FunderAt f file aux (some (m, acc)) h) : f.accept m aux = .ok (acc, acc.commit) := by
  cases hat with
  | accepted hacc | adopted hacc | doubled hacc => exact hacc

/-- A funder that is past its proposal took an answer. -/
theorem FunderAt.took_of {file : Option AcceptMessage → OpeningFile} {aux : Hash256}
    {g : Option (AcceptMessage × AcceptedFunder)} {h : Host} (hat : FunderAt f file aux g h)
    (hpast : ∀ f' op, h.opening ≠ some ⟨op, .proposed f'⟩) : g.isSome = true := by
  cases hat with
  | proposed => exact absurd rfl (hpast f (file none))
  | accepted hacc | adopted hacc | doubled hacc => rfl

theorem FunderAt.not_proposed {file : Option AcceptMessage → OpeningFile} {aux : Hash256}
    {g : Option (AcceptMessage × AcceptedFunder)} {h : Host} (hat : FunderAt f file aux g h)
    (hg : g.isSome = true) (f' : FunderOpening) (op : OpeningFile) :
    h.opening ≠ some ⟨op, .proposed f'⟩ := by
  intro heq
  cases hat with
  | proposed => cases hg
  | accepted hacc | adopted hacc | doubled hacc => cases heq

theorem ReceiverAt.accepted_of {own : Config} {file : OpeningFile} {m : OpenMessage}
    {r : ReceiverOpening} {h : Host} (hat : ReceiverAt own (some (file, m, r)) none h) :
    Answers own file m r ∧ h = ⟨some ⟨file, .receiver r⟩, none, some file, none⟩ := by
  cases hat with
  | accepted hr => exact ⟨hr, rfl⟩

theorem ReceiverAt.idle_of {own : Config} {c : Option CommitMessage} {h : Host}
    (hat : ReceiverAt own none c h) : h = noHost := by
  cases hat with
  | idle => rfl

/-- The receiver's record is unused, or names the funder. -/
def Free (cfg : Side → Config) (h : Host) : Prop :=
  (∀ op, h.opening = some op → op.file.peer = (cfg .a).me) ∧
    ∀ m, h.channel = some m → m.peerKey = (cfg .a).me

theorem ReceiverAt.peer_of {own : Config} {file : OpeningFile} {m : OpenMessage}
    {r : ReceiverOpening} {c : Option CommitMessage} {h : Host}
    (hat : ReceiverAt own (some (file, m, r)) c h) (hfree : Free cfg h) :
    file.peer = (cfg .a).me := by
  cases hat with
  | accepted hr | doubled hr hc => exact hfree.1 _ rfl
  | adopted hr hc =>
    rw [← hr.peerKey]
    exact hfree.2 _ rfl

/-- The host set up to accept the proposal, with some secrets it may draw. -/
def Willing (cfg : Side → Config) (part : FunderPart) (fresh : Fresh) : Prop :=
  ∀ f, FunderOpening.propose part.params (keysOf (cfg .a) fresh) (cfg .b).me (cfg .a).rules
      fresh.aux = .ok (f, f.message) →
    ∃ fr e, onOpen (cfg .b) noHost (cfg .a).me f.message fr = .ok e

/-- The receiver answers. -/
theorem answer_step (hwilling : Willing cfg part fresh)
    (hf : FunderOpening.propose part.params (keysOf (cfg .a) fresh) (cfg .b).me (cfg .a).rules
      fresh.aux = .ok (f, f.message)) {s : System}
    {c : Option CommitMessage} (hs : Stands cfg part fresh f none none c s) :
    ∃ s', Relation.ReflTransGen (Step cfg) s s' ∧ Free cfg (s'.hosts .b) ∧
      (s'.hosts .b).opening.isSome = true := by
  obtain ⟨fr, e, he⟩ := hwilling f hf
  have ha := hs.funder.proposed_of rfl
  have hb := hs.receiver.idle_of
  obtain ⟨s', hsteps, -, hb', -⟩ := resent cfg s .a (m := .open f.message) fr (by
    rw [ha]
    exact List.mem_singleton.mpr rfl)
  change s'.hosts .b = (s.hosts .b).after
    (effect (cfg .b) (s.hosts .b) (.message (cfg .a).me (.open f.message) fr)) at hb'
  have heffect : effect (cfg .b) noHost (.message (cfg .a).me (.open f.message) fr) = e := by
    change (match onOpen (cfg .b) noHost (cfg .a).me f.message fr with
      | .ok e => e
      | _ => noHost.keep []) = e
    rw [he]
  rw [hb, heffect] at hb'
  unfold onOpen noHost at he
  obtain ⟨_, -, he⟩ := Res.bind_eq_ok.mp he
  obtain ⟨_, -, he⟩ := Res.bind_eq_ok.mp he
  obtain ⟨r, -, he⟩ := Res.bind_eq_ok.mp he
  cases he
  refine ⟨s', hsteps, ?_, ?_⟩
  · rw [hb']
    refine ⟨fun op hop => ?_, fun m hm => by cases hm⟩
    cases hop
    rfl
  · rw [hb']
    rfl

/-- The funder takes the answer. -/
theorem accept_step (hlaw : Complete) (hrules : (cfg .a).rules = (cfg .b).rules)
    (hf : FunderOpening.propose part.params (keysOf (cfg .a) fresh) (cfg .b).me (cfg .a).rules
      fresh.aux = .ok (f, f.message)) {s : System} {file : OpeningFile} {r : ReceiverOpening}
    (hpeer : file.peer = (cfg .a).me)
    (hs : Stands cfg part fresh f none (some (file, f.message, r)) none s) :
    ∃ s', Relation.ReflTransGen (Step cfg) s s' ∧ s'.hosts .b = s.hosts .b ∧
      ∃ acc op, (s'.hosts .a).opening = some ⟨op, .accepted acc⟩ := by
  obtain ⟨hr, hb⟩ := hs.receiver.accepted_of
  have ha := hs.funder.proposed_of rfl
  have hproposed := (FunderOpening.propose_ok hf).1
  rw [hrules] at hproposed
  obtain ⟨acc, hacc⟩ := hlaw.accept_ok hproposed hr.checked
  obtain ⟨s', hsteps, hb', ha', -⟩ := resent cfg s .b (m := .accept r.message) fresh (by
    rw [hb]
    exact List.mem_singleton.mpr (by rw [hpeer]; rfl))
  refine ⟨s', hsteps, hb', acc, funderFile (cfg .b).me part fresh (some r.message), ?_⟩
  change s'.hosts .a = (s.hosts .a).after
    (effect (cfg .a) (s.hosts .a) (.message (cfg .b).me (.accept r.message) fresh)) at ha'
  rw [ha', ha]
  unfold effect onMessage
  dsimp only
  have hwrong : wrongSender ⟨some ⟨funderFile (cfg .b).me part fresh none, .proposed f⟩, none,
      some (funderFile (cfg .b).me part fresh none), none⟩ (cfg .b).me = false :=
    bne_self_eq_false _
  rw [hwrong, if_neg Bool.false_ne_true]
  unfold handle onAccept funderFile
  dsimp only
  rw [hacc]
  rfl

/-- The receiver takes the commit. -/
theorem commit_step (hlaw : Complete) (hrules : (cfg .a).rules = (cfg .b).rules)
    (hf : FunderOpening.propose part.params (keysOf (cfg .a) fresh) (cfg .b).me (cfg .a).rules
      fresh.aux = .ok (f, f.message)) {s : System} {file : OpeningFile} {r : ReceiverOpening}
    {acc : AcceptedFunder} (hpeer : file.peer = (cfg .a).me)
    (hs : Stands cfg part fresh f (some (r.message, acc)) (some (file, f.message, r)) none s) :
    ∃ s', Relation.ReflTransGen (Step cfg) s s' ∧ s'.hosts .a = s.hosts .a ∧
      (s'.hosts .b).channel.isSome = true := by
  obtain ⟨hr, hb⟩ := hs.receiver.accepted_of
  have hnone : (s.hosts .a).channel = none := by
    rw [← Option.not_isSome_iff_eq_none]
    intro hsome
    obtain ⟨x, hx⟩ := Option.isSome_iff_exists.mp hsome
    cases hs.adopted (hs.funder.disk_of hx)
  have ha := hs.funder.accepted_of hnone
  have hproposed := (FunderOpening.propose_ok hf).1
  have hchecked := (FunderOpening.accept_ok hs.funder.took).1
  rw [hrules] at hproposed
  have hcommit := hlaw.commit_ok hproposed hr.checked hchecked
  obtain ⟨s', hsteps, ha', hb', -⟩ := resent cfg s .a (m := .commit acc.commit) fresh (by
    rw [ha]
    exact List.mem_singleton.mpr rfl)
  refine ⟨s', hsteps, ha', ?_⟩
  change s'.hosts .b = (s.hosts .b).after
    (effect (cfg .b) (s.hosts .b) (.message (cfg .a).me (.commit acc.commit) fresh)) at hb'
  rw [hb', hb]
  unfold effect onMessage
  dsimp only
  have hwrong : wrongSender ⟨some ⟨file, .receiver r⟩, none, some file, none⟩ (cfg .a).me =
      false := by
    rw [← hpeer]
    exact bne_self_eq_false _
  rw [hwrong, if_neg Bool.false_ne_true]
  unfold handle onCommit
  dsimp only
  rw [hcommit]
  rfl

/-- The receiver, which has the channel, is ready again. -/
theorem ready_step
    (hf : FunderOpening.propose part.params (keysOf (cfg .a) fresh) (cfg .b).me (cfg .a).rules
      fresh.aux = .ok (f, f.message)) {s : System} {file : OpeningFile} {r : ReceiverOpening}
    {acc : AcceptedFunder} {com : CommitMessage} (hpeer : file.peer = (cfg .a).me)
    (hs : Stands cfg part fresh f (some (r.message, acc)) (some (file, f.message, r)) (some com) s)
    (hnone : (s.hosts .a).channel = none) :
    ∃ s', Relation.ReflTransGen (Step cfg) s s' ∧ (s'.hosts .a).channel.isSome = true := by
  have ha := hs.funder.accepted_of hnone
  have hproposed := (FunderOpening.propose_ok hf).1
  have hchecked := (FunderOpening.accept_ok hs.funder.took).1
  obtain ⟨hr, -, hchannel, -⟩ := hs.receiver.channel_of
  have hpeerKey := (hr.peerKey com.sig).trans hpeer
  obtain ⟨s', hsteps, ha', -, hsends⟩ := resent cfg s .a (m := .commit acc.commit) fresh
    (by
      rw [ha]
      exact List.mem_singleton.mpr rfl)
  have hready : ⟨Side.b, (cfg .a).me, .ready r.id⟩ ∈ s'.sent := by
    refine hsends ((cfg .a).me, .ready r.id) ?_
    change _ ∈ (effect (cfg .b) (s.hosts .b) (.message (cfg .a).me (.commit acc.commit)
      fresh)).sends
    unfold effect onMessage
    dsimp only
    have hwrong : wrongSender (s.hosts .b) (cfg .a).me = false := by
      unfold wrongSender
      rw [hchannel]
      dsimp only
      rw [hpeerKey]
      exact bne_self_eq_false _
    rw [hwrong, if_neg Bool.false_ne_true]
    unfold handle onCommit
    rw [hchannel]
    dsimp only
    rw [if_pos (show (r.opened com.sig).machine.role = Side.b from rfl), hpeerKey]
    exact List.mem_singleton.mpr rfl
  obtain ⟨s'', hsteps', ha''⟩ := arrives cfg s' fresh hready
  refine ⟨s'', hsteps.trans hsteps', ?_⟩
  have hid : r.id = acc.opening.id := by
    have hid := hchecked.id
    rw [hr.checked.message] at hid
    rw [hchecked.opening, ← hid, hr.checked.id]
  rw [ha'', ha', ha]
  unfold effect onMessage
  dsimp only
  have hwrong : wrongSender ⟨some ⟨funderFile (cfg .b).me part fresh (some r.message),
      .accepted acc⟩, none, some (funderFile (cfg .b).me part fresh (some r.message)), none⟩
      (cfg .b).me = false := bne_self_eq_false _
  rw [hwrong, if_neg Bool.false_ne_true]
  unfold handle onReady AcceptedFunder.ready
  dsimp only
  rw [hid, bne_self_eq_false, Res.refuseIf_false, Res.ok_bind,
    (AcceptedFunder.handed hproposed hchecked).2]
  rfl

/-- Messages asked for again bring the funder its channel. -/
theorem Reached.adopts (hlaw : Complete) (hrules : (cfg .a).rules = (cfg .b).rules)
    (hwilling : Willing cfg part fresh) {s : System} (h : Reached cfg part fresh s)
    (hfree : Free cfg (s.hosts .b)) :
    ∃ s', Relation.ReflTransGen (Step cfg) s s' ∧ (s'.hosts .a).channel.isSome = true := by
  obtain ⟨f, hf, -⟩ := h.stands
  have hsame : ∀ {s : System}, Reached cfg part fresh s →
      ∃ g q c, Stands cfg part fresh f g q c s := by
    intro s h
    obtain ⟨f', hf', hs⟩ := h.stands
    rw [hf] at hf'
    cases hf'
    exact hs
  -- the receiver has the channel, then the funder
  have hlast : ∀ {s₁ : System}, Relation.ReflTransGen (Step cfg) s s₁ →
      ∀ {g q com}, Stands cfg part fresh f g q (some com) s₁ → g.isSome = true →
      ∃ s', Relation.ReflTransGen (Step cfg) s s' ∧ (s'.hosts .a).channel.isSome = true := by
    intro s₁ hsteps g q com hs hsome
    obtain ⟨⟨m, acc⟩, rfl⟩ := Option.isSome_iff_exists.mp hsome
    obtain ⟨file, om, r, rfl, hpeer, rfl⟩ := hs.answered m acc rfl
    obtain rfl := hs.asked file om r rfl hpeer
    by_cases hnone : (s₁.hosts .a).channel = none
    · obtain ⟨s', hsteps', hsome⟩ := ready_step hf hpeer hs hnone
      exact ⟨s', hsteps.trans hsteps', hsome⟩
    · exact ⟨s₁, hsteps, Option.isSome_iff_ne_none.mpr hnone⟩
  -- the funder took the answer
  have hthird : ∀ {s₁ : System}, Relation.ReflTransGen (Step cfg) s s₁ →
      ∀ {g q c}, Stands cfg part fresh f g q c s₁ → g.isSome = true →
      ∃ s', Relation.ReflTransGen (Step cfg) s s' ∧ (s'.hosts .a).channel.isSome = true := by
    intro s₁ hsteps g q c hs hsome
    cases c with
    | some com => exact hlast hsteps hs hsome
    | none =>
      obtain ⟨⟨m, acc⟩, rfl⟩ := Option.isSome_iff_exists.mp hsome
      obtain ⟨file, om, r, rfl, hpeer, rfl⟩ := hs.answered m acc rfl
      obtain rfl := hs.asked file om r rfl hpeer
      obtain ⟨s₂, hsteps', ha, hchannel⟩ := commit_step hlaw hrules hf hpeer hs
      obtain ⟨g', q', c', hs'⟩ := hsame (h.steps (hsteps.trans hsteps'))
      obtain ⟨com, rfl⟩ := Option.isSome_iff_exists.mp (hs'.receiver.taken hchannel)
      refine hlast (hsteps.trans hsteps') hs' (hs'.funder.took_of ?_)
      rw [ha]
      exact hs.funder.not_proposed rfl
  -- the receiver answered
  have hsecond : ∀ {s₁ : System}, Relation.ReflTransGen (Step cfg) s s₁ →
      ∀ {g q c}, Stands cfg part fresh f g q c s₁ → q.isSome = true → Free cfg (s₁.hosts .b) →
      ∃ s', Relation.ReflTransGen (Step cfg) s s' ∧ (s'.hosts .a).channel.isSome = true := by
    intro s₁ hsteps g q c hs hsome hfree
    cases g with
    | some _ => exact hthird hsteps hs rfl
    | none =>
      obtain ⟨⟨file, om, r⟩, rfl⟩ := Option.isSome_iff_exists.mp hsome
      have hpeer := hs.receiver.peer_of hfree
      obtain rfl := hs.asked file om r rfl hpeer
      have hc : c = none := by
        rw [← Option.not_isSome_iff_eq_none]
        intro hsome
        obtain ⟨com, rfl⟩ := Option.isSome_iff_exists.mp hsome
        obtain ⟨_, _, hg, -⟩ := hs.committed file f.message r com rfl hpeer rfl
        cases hg
      subst hc
      obtain ⟨s₂, hsteps', -, acc, op, ha⟩ := accept_step hlaw hrules hf hpeer hs
      obtain ⟨g', q', c', hs'⟩ := hsame (h.steps (hsteps.trans hsteps'))
      refine hthird (hsteps.trans hsteps') hs' (hs'.funder.took_of fun f' op' => ?_)
      rw [ha]
      exact fun heq => by cases heq
  obtain ⟨g, q, c, hs⟩ := hsame h
  cases q with
  | some _ => exact hsecond .refl hs rfl hfree
  | none =>
    cases g with
    | some ma =>
      obtain ⟨_, _, _, hq, -⟩ := hs.answered ma.1 ma.2 rfl
      cases hq
    | none =>
      obtain ⟨s₁, hsteps, hfree', hopening⟩ := answer_step hwilling hf hs
      obtain ⟨g', q', c', hs'⟩ := hsame (h.steps hsteps)
      refine hsecond hsteps hs' ?_ hfree'
      rw [Option.isSome_iff_ne_none]
      rintro rfl
      rw [hs'.receiver.idle_of] at hopening
      cases hopening

end

end

/-! ### A sample exchange -/

/-- The sample curve, with proofs at the basepoint. -/
@[reducible] def sampleOpeningHitch : OpeningHitch where
  toHitch := sampleHitch
  popSignBase key id side _ := keyedHash 15 key.1 [id.toNat, side.toNat]
  popVerifyBase point proof id side := proof == keyedHash 15 point [id.toNat, side.toNat]

attribute [local instance] sampleOpeningHitch

theorem sampleHitch_complete : Complete where
  symmetric r b := by
    change (if r.1 + b.1 = 0 then none else some (r.1 + b.1)) =
      if b.1 + r.1 = 0 then none else some (b.1 + r.1)
    rw [BitVec.add_comm]
  verifies tx prevouts leafHash key rules aux sig h := by
    cases h
    exact beq_self_eq_true _
  signs _ _ _ _ _ _ _ := rfl
  scripts _ _ _ := rfl
  pops _ _ _ := beq_self_eq_true _
  popsBase _ _ _ _ := beq_self_eq_true _

theorem funder_ne_zero : (BitVec.ofNat 256 101 != 0) = true := by decide
theorem receiver_ne_zero : (BitVec.ofNat 256 202 != 0) = true := by decide
theorem base_ne_zero : (BitVec.ofNat 256 11 != 0) = true := by decide
theorem first_ne_zero : (BitVec.ofNat 256 21 != 0) = true := by decide
theorem second_ne_zero : (BitVec.ofNat 256 22 != 0) = true := by decide

/-- Two hosts that accept anyone. -/
def sampleConfig : Side → Config
  | .a => ⟨sampleSecret 101 funder_ne_zero, .bip341, minDelay, none, fun _ => true⟩
  | .b => ⟨sampleSecret 202 receiver_ne_zero, .bip341, minDelay, none, fun _ => true⟩

def samplePart : FunderPart :=
  ⟨sampleChannel.fundingOutpoint, 100000, 20000, 10, 1000, none⟩

def sampleFresh : Fresh :=
  ⟨sampleSecret 11 base_ne_zero, (sampleSecret 21 first_ne_zero, sampleSecret 22 second_ne_zero), 0⟩

set_option maxRecDepth 100000 in
theorem sample_opens :
    (openChannel (sampleConfig .a) samplePart (sampleConfig .b).me sampleFresh).any
      (fun _ => true) = true := by
  decide +kernel

set_option maxRecDepth 100000 in
theorem sample_answers :
    (onOpen (sampleConfig .b) noHost (sampleConfig .a).me (openMessageOf samplePart.params
      (keysOf (sampleConfig .a) sampleFresh) (sampleConfig .b).me sampleFresh.aux) sampleFresh).any
      (fun _ => true) = true := by
  decide +kernel

theorem sample_willing : Willing sampleConfig samplePart sampleFresh := by
  intro f hf
  rw [(FunderOpening.propose_ok hf).1.message]
  obtain ⟨e, he, -⟩ := Res.any_eq_true.mp sample_answers
  exact ⟨sampleFresh, e, he⟩

theorem sample_start : ∃ s, Reached sampleConfig samplePart sampleFresh s ∧
    Free sampleConfig (s.hosts .b) := by
  obtain ⟨e, he, -⟩ := Res.any_eq_true.mp sample_opens
  refine ⟨_, .start he, ?_⟩
  change Free sampleConfig noHost
  exact ⟨fun _ hop => (by cases hop), fun _ hm => (by cases hm)⟩

theorem sample_adopts : ∃ s mA, Reached sampleConfig samplePart sampleFresh s ∧
    (s.hosts .a).channel = some mA := by
  obtain ⟨s, hs, hfree⟩ := sample_start
  obtain ⟨s', hsteps, hsome⟩ := hs.adopts sampleHitch_complete rfl sample_willing hfree
  obtain ⟨mA, hA⟩ := Option.isSome_iff_exists.mp hsome
  exact ⟨s', mA, hs.steps hsteps, hA⟩

theorem hosts_agree_sample : ∃ s mA mB oA oB, Reached sampleConfig samplePart sampleFresh s ∧
    (s.hosts .b).channel = some mB ∧ Ends sampleConfig samplePart.params oA oB mA mB := by
  obtain ⟨s, mA, hs, hA⟩ := sample_adopts
  obtain ⟨mB, oA, oB, hB, -, hends⟩ := hosts_agree sampleHitch_complete.symmetric hs hA
  exact ⟨s, mA, mB, oA, oB, hs, hB, hends⟩

theorem load_returns_sample : ∃ s host, Reached sampleConfig samplePart sampleFresh s ∧
    (s.hosts .a).channel.isSome = true ∧ load (sampleConfig .a) (s.hosts .a).disk = .ok host := by
  obtain ⟨s, mA, hs, hA⟩ := sample_adopts
  obtain ⟨host, hhost⟩ := load_returns hs .a .tick trivial 0
  exact ⟨s, host, hs, by rw [hA]; rfl, hhost⟩

end Handshake

end Hitch

end Sidestr
