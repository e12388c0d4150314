/-
# A handshake over its files

Each host's files are its store's: a call's writes are made in order through
`Store::write` and `Store::remove`, and a host may stop, with its machine, at any
system call of any of them, or alone between two. What its store reads when it starts again is what the
handshake's own steps give (`Kept.refines`).

Key definitions: `openingPath`, `channelPath`, `callOf`, `Reads`, `Kept`.
Key theorems: `Saved.carried`, `Saved.stopped`, `Kept.refines`.
-/
import Sidestr.Agent.Envelope
import Sidestr.Agent.Handshake
import Sidestr.Agent.Store
import Sidestr.Wallet.Asset

namespace Sidestr

namespace Hitch

namespace Handshake

/-! ### Where the files are -/

def openings : Bytes := ascii ['o', 'p', 'e', 'n', 'i', 'n', 'g', 's']

def channels : Bytes := ascii ['c', 'h', 'a', 'n', 'n', 'e', 'l', 's']

def jsonName (id : ChannelId) : Bytes := Envelope.channelHex id ++ ascii ['.', 'j', 's', 'o', 'n']

def openingPath (id : ChannelId) : Bytes := openings ++ 0x2f :: jsonName id

def channelPath (id : ChannelId) : Bytes := channels ++ 0x2f :: jsonName id

def openingAt (id : ChannelId) : Store.Path := ⟨[openings], jsonName id⟩

def channelAt (id : ChannelId) : Store.Path := ⟨[channels], jsonName id⟩

theorem mem_channelHex {id : ChannelId} {b : UInt8} (h : b ∈ Envelope.channelHex id) :
    isLowerHexDigit b = true := List.all_eq_true.mp (hexEncode_lower _) b h

theorem jsonName_plain (id : ChannelId) {b : UInt8} (hb : isLowerHexDigit b = false)
    (hsuffix : b ∉ ascii ['.', 'j', 's', 'o', 'n']) : b ∉ jsonName id := by
  intro hmem
  rcases List.mem_append.mp hmem with hhex | hjson
  · rw [mem_channelHex hhex] at hb
    cases hb
  · exact hsuffix hjson

theorem jsonName_head (id : ChannelId) : ∃ b rest, jsonName id = b :: rest ∧ b ≠ 0x2e := by
  have hlen : (Envelope.channelHex id).length = 16 := by
    unfold Envelope.channelHex
    rw [length_hexEncode, List.length_reverse, length_leBytes]
  cases hhex : Envelope.channelHex id with
  | nil =>
    rw [hhex] at hlen
    cases hlen
  | cons b rest =>
    refine ⟨b, rest ++ ascii ['.', 'j', 's', 'o', 'n'], ?_, ?_⟩
    · unfold jsonName
      rw [hhex, List.cons_append]
    · rintro rfl
      have hmem : (0x2e : UInt8) ∈ Envelope.channelHex id := by
        rw [hhex]
        exact List.mem_cons_self
      have hdot := mem_channelHex hmem
      revert hdot
      decide

/-- A file of a directory is where its path says. -/
theorem path_inside {dir : Bytes} (hslash : (0x2f : UInt8) ∉ dir) (hempty : dir ≠ [])
    (hdot : dir ≠ Store.dot) (hdots : dir ≠ Store.dotDot) (id : ChannelId) :
    Store.path (dir ++ 0x2f :: jsonName id) = .ok ⟨[dir], jsonName id⟩ := by
  have hname : (0x2f : UInt8) ∉ jsonName id := jsonName_plain id (by decide) (by decide)
  have hall : splitAll 0x2f (dir ++ 0x2f :: jsonName id) = [dir, jsonName id] := by
    rw [Wallet.splitAll_append hslash, Wallet.splitAll_of_notMem hname]
  obtain ⟨b, rest, hjson, hb⟩ := jsonName_head id
  have hhead : (dir ++ 0x2f :: jsonName id).head? ≠ some 0x2f := by
    cases dir with
    | nil => exact absurd rfl hempty
    | cons x dir =>
      intro hx
      exact hslash (Option.some.inj hx ▸ List.mem_cons_self)
  have hne : jsonName id ≠ [] := by simp [hjson]
  have hnd : jsonName id ≠ Store.dot := by simp [hjson, Store.dot, hb]
  have hndd : jsonName id ≠ Store.dotDot := by simp [hjson, Store.dotDot, hb]
  have hrelative : ((dir ++ 0x2f :: jsonName id).head? == some 0x2f ||
      [dir, jsonName id].head? == some Store.dot || [dir, jsonName id].contains Store.dotDot) =
        false := by
    rw [Bool.or_eq_false_iff, Bool.or_eq_false_iff, beq_eq_false_iff_ne, beq_eq_false_iff_ne]
    refine ⟨⟨hhead, fun h => hdot (Option.some.inj h)⟩, ?_⟩
    simp [Ne.symm hdots, Ne.symm hndd]
  have hends : ([dir, jsonName id].getLast? == some [] ||
      [dir, jsonName id].getLast? == some Store.dot) = false := by
    rw [Bool.or_eq_false_iff, beq_eq_false_iff_ne, beq_eq_false_iff_ne]
    exact ⟨fun h => hne (Option.some.inj h), fun h => hnd (Option.some.inj h)⟩
  have hnormal : [dir, jsonName id].filter (fun p => p != [] && p != Store.dot) =
      [dir, jsonName id] := by simp [hempty, hdot, hne, hnd]
  unfold Store.path
  simp only [hall, hrelative, hends, hnormal, Res.refuseIf_false, Res.ok_bind]
  rfl

theorem path_opening (id : ChannelId) : Store.path (openingPath id) = .ok (openingAt id) :=
  path_inside (by decide) (by decide) (by decide) (by decide) id

theorem path_channel (id : ChannelId) : Store.path (channelPath id) = .ok (channelAt id) :=
  path_inside (by decide) (by decide) (by decide) (by decide) id

theorem opening_isTarget (id : ChannelId) : Store.IsTarget (openingAt id) := by
  obtain ⟨b, rest, hjson, hb⟩ := jsonName_head id
  unfold Store.IsTarget openingAt
  rw [hjson]
  exact fun h => hb (Option.some.inj h)

theorem channel_isTarget (id : ChannelId) : Store.IsTarget (channelAt id) := opening_isTarget id

theorem opening_ne_channel (id : ChannelId) : openingAt id ≠ channelAt id := by
  intro h
  have hdir : [openings] = [channels] := congrArg Store.Path.dir h
  revert hdir
  decide

/-! ### What a store holds -/

section

variable [OpeningHitch]

/-- What a file says, its JSON as data. -/
inductive Content
  /-- Nothing, or not the whole of a file. -/
  | part
  | opening (file : OpeningFile)
  | channel (snapshot : ChannelSnapshot)

instance : Inhabited Content := ⟨.part⟩

/-- The store's call for a write. -/
def callOf (id : ChannelId) : Write → Store.Call Content
  | .opening file => ⟨openingAt id, some (.opening file)⟩
  | .channel snapshot => ⟨channelAt id, some (.channel snapshot)⟩
  | .dropOpening => ⟨openingAt id, none⟩

structure Files (id : ChannelId) (d : Disk) (files : Store.Path → Option Content) : Prop where
  opening : files (openingAt id) = d.opening.map Content.opening
  channel : files (channelAt id) = d.channel.map Content.channel

/-- What a host reads when it starts. -/
structure Reads (id : ChannelId) (σ : Store.State Content) (d : Disk) : Prop where
  opening : Store.read σ.fs (openingPath id) = .ok (d.opening.map Content.opening)
  channel : Store.read σ.fs (channelPath id) = .ok (d.channel.map Content.channel)

/-- The store has the files, whatever crashes now. -/
def Saved (id : ChannelId) (d : Disk) (σ : Store.State Content) : Prop :=
  ∃ files, Store.Settled files σ ∧ Files id d files

variable {id : ChannelId} {d d' : Disk} {σ σ' : Store.State Content}
  {files : Store.Path → Option Content}

theorem Saved.reads (h : Saved id d σ) : Reads id σ d := by
  obtain ⟨files, hsettled, hfiles⟩ := h
  constructor
  · rw [hsettled.read (path_opening id) (opening_isTarget id), hfiles.opening]
  · rw [hsettled.read (path_channel id) (channel_isTarget id), hfiles.channel]

/-- A store reads one way. -/
theorem Reads.unique (h : Reads id σ d) (h' : Reads id σ d') : d = d' := by
  have hopening : d.opening.map Content.opening = d'.opening.map Content.opening := by
    have heq := h.opening.symm.trans h'.opening
    injection heq
  have hchannel : d.channel.map Content.channel = d'.channel.map Content.channel := by
    have heq := h.channel.symm.trans h'.channel
    injection heq
  obtain ⟨o, c⟩ := d
  obtain ⟨o', c'⟩ := d'
  have ho : o = o' := Option.map_injective (fun _ _ hx => by injection hx) hopening
  have hc : c = c' := Option.map_injective (fun _ _ hx => by injection hx) hchannel
  rw [ho, hc]

theorem Files.make (h : Files id d files) (w : Write) :
    Files id (d.write w) ((callOf id w).make files) := by
  cases w with
  | opening file =>
    constructor
    · exact Store.make_self files ⟨openingAt id, some (.opening file)⟩
    · exact (Store.make_of_ne (opening_ne_channel id).symm).trans h.channel
  | channel snapshot =>
    constructor
    · exact (Store.make_of_ne (opening_ne_channel id)).trans h.opening
    · exact Store.make_self files ⟨channelAt id, some (.channel snapshot)⟩
  | dropOpening =>
    constructor
    · exact Store.make_self files ⟨openingAt id, none⟩
    · exact (Store.make_of_ne (opening_ne_channel id).symm).trans h.channel

theorem Files.makes (ws : List Write) : ∀ {d : Disk} {files : Store.Path → Option Content},
    Files id d files → Files id (d.writes ws) ((ws.map (callOf id)).foldl Store.Call.make files) := by
  induction ws with
  | nil => exact fun h => h
  | cons w ws ih => exact fun h => ih (h.make w)

/-- Writes that returned are in the store. -/
theorem Saved.carried (h : Saved id d σ) {ws : List Write} {ls : List (Store.Label Content)}
    (hcarried : Store.Carried (ws.map (callOf id)) ls) (hrun : Store.Run σ ls σ') :
    Saved id (d.writes ws) σ' := by
  obtain ⟨files, hsettled, hfiles⟩ := h
  exact ⟨_, hsettled.carried hcarried hrun, hfiles.makes ws⟩

/-- Writes stopped anywhere are in the store up to one of them. -/
theorem Saved.stopped (h : Saved id d σ) {ws : List Write} {ls : List (Store.Label Content)}
    (hstopped : Store.Interrupted (ws.map (callOf id)) ls) (hrun : Store.Run σ ls σ')
    {fs : Store.Disk Content} (hcrash : σ'.fs.Crash fs) (pid : ℕ) :
    ∃ k, Saved id (d.writes (ws.take k)) ⟨fs, .idle, pid, 0⟩ := by
  obtain ⟨files, hsettled, hfiles⟩ := h
  obtain ⟨k, -, hk⟩ := hsettled.interrupted hstopped hcrash pid hrun
  rw [← List.map_take] at hk
  exact ⟨k, _, hk, hfiles.makes _⟩

theorem Saved.restart (h : Saved id d σ) (pid : ℕ) : Saved id d ⟨σ.fs, .idle, pid, 0⟩ := by
  obtain ⟨files, hsettled, hfiles⟩ := h
  exact ⟨files, hsettled.restart pid, hfiles⟩

theorem Saved.start (pid : ℕ) : Saved id ⟨none, none⟩ (Store.State.start Content pid) :=
  ⟨_, Store.Settled.start pid, rfl, rfl⟩

/-! ### Two hosts over their stores -/

/-- The runs of two hosts and their stores: a call's writes all return before its
messages are sent, or the machine stops in them, or the process between two of them,
and the host starts from what is read. -/
inductive Kept (cfg : Side → Config) (part : FunderPart) (fresh : Fresh) (id : ChannelId) :
    System → (Side → Store.State Content) → Prop
  | start {e : Effect} {ls : List (Store.Label Content)} {σ : Store.State Content} (pid : Side → ℕ) :
      openChannel (cfg .a) part (cfg .b).me fresh = .ok e →
      Store.Carried (e.writes.map (callOf id)) ls → Store.Run (.start Content (pid .a)) ls σ →
      Kept cfg part fresh id (System.act ⟨fun _ => noHost, []⟩ .a e)
        (Function.update (fun side => .start Content (pid side)) .a σ)
  | act {s : System} {stores : Side → Store.State Content} (side : Side) (cause : Cause)
      {ls : List (Store.Label Content)} {σ : Store.State Content} :
      Kept cfg part fresh id s stores → s.Occurs cfg side cause →
      Store.Carried ((effect (cfg side) (s.hosts side) cause).writes.map (callOf id)) ls →
      Store.Run (stores side) ls σ →
      Kept cfg part fresh id (s.act side (effect (cfg side) (s.hosts side) cause))
        (Function.update stores side σ)
  | crash {s : System} {stores : Side → Store.State Content} (side : Side) (cause : Cause)
      {ls : List (Store.Label Content)} {σ : Store.State Content} {fs : Store.Disk Content} (pid : ℕ)
      {d : Disk} {h : Host} :
      Kept cfg part fresh id s stores → s.Occurs cfg side cause →
      Store.Interrupted ((effect (cfg side) (s.hosts side) cause).writes.map (callOf id)) ls →
      Store.Run (stores side) ls σ → σ.fs.Crash fs → Reads id ⟨fs, .idle, pid, 0⟩ d →
      load (cfg side) d = .ok h →
      Kept cfg part fresh id (s.put side h) (Function.update stores side ⟨fs, .idle, pid, 0⟩)

  | killed {s : System} {stores : Side → Store.State Content} (side : Side) (cause : Cause) (k : ℕ)
      {ls : List (Store.Label Content)} {σ : Store.State Content} (pid : ℕ) {d : Disk} {h : Host} :
      Kept cfg part fresh id s stores → s.Occurs cfg side cause →
      Store.Carried
        (((effect (cfg side) (s.hosts side) cause).writes.take k).map (callOf id)) ls →
      Store.Run (stores side) ls σ → Reads id ⟨σ.fs, .idle, pid, 0⟩ d →
      load (cfg side) d = .ok h →
      Kept cfg part fresh id (s.put side h) (Function.update stores side ⟨σ.fs, .idle, pid, 0⟩)

theorem load_disk {cfg : Config} {h : Host} (hload : load cfg d = .ok h) : h.disk = d := by
  obtain ⟨channel, -, hrest⟩ := Res.bind_eq_ok.mp hload
  obtain ⟨opening, -, hhost⟩ := Res.bind_eq_ok.mp hrest
  injection hhost with hhost
  rw [← hhost]

variable {cfg : Side → Config} {part : FunderPart} {fresh : Fresh} {s : System}
  {stores : Side → Store.State Content}

/-- One host's files and store change together. -/
theorem saved_update (hosts : Side → Host) (h : ∀ side, Saved id (hosts side).disk (stores side))
    {side : Side} {host : Host} (hσ : Saved id host.disk σ) (side' : Side) :
    Saved id (Function.update hosts side host side').disk (Function.update stores side σ side') := by
  by_cases hside : side' = side
  · subst hside
    rw [Function.update_self, Function.update_self]
    exact hσ
  · rw [Function.update_of_ne hside, Function.update_of_ne hside]
    exact h side'

theorem Kept.reached (h : Kept cfg part fresh id s stores) :
    Reached cfg part fresh s ∧ ∀ side, Saved id (s.hosts side).disk (stores side) := by
  induction h with
  | start pid hopen hcarried hrun =>
    exact ⟨.start hopen, saved_update (fun _ => noHost) (fun side => Saved.start (pid side))
      ((Saved.start (pid .a)).carried hcarried hrun)⟩
  | act side cause _ hocc hcarried hrun ih =>
    exact ⟨.step ih.1 (.act side cause hocc), saved_update _ ih.2 ((ih.2 side).carried hcarried hrun)⟩
  | crash side cause pid _ hocc hstopped hrun hcrash hreads hload ih =>
    obtain ⟨k, hk⟩ := (ih.2 side).stopped hstopped hrun hcrash pid
    obtain rfl := hreads.unique hk.reads
    refine ⟨.step ih.1 (.crash side cause k hocc hload), saved_update _ ih.2 ?_⟩
    rw [load_disk hload]
    exact hk
  | killed side cause k pid _ hocc hcarried hrun hreads hload ih =>
    have hk := ((ih.2 side).carried hcarried hrun).restart pid
    obtain rfl := hreads.unique hk.reads
    refine ⟨.step ih.1 (.crash side cause k hocc hload), saved_update _ ih.2 ?_⟩
    rw [load_disk hload]
    exact hk

/-- **Hosts over their stores are the hosts of the handshake**, and each store
reads what the handshake says its host has saved. -/
theorem stores_refine (h : Kept cfg part fresh id s stores) :
    Reached cfg part fresh s ∧ ∀ side, Reads id (stores side) (s.hosts side).disk :=
  ⟨h.reached.1, fun side => (h.reached.2 side).reads⟩

end

section

attribute [local instance] sampleOpeningHitch

/-- The funder's proposal, saved. -/
theorem stores_refine_sample : ∃ s stores,
    Kept sampleConfig samplePart sampleFresh 1 s stores ∧ (s.hosts .a).opening.isSome = true ∧
      Reads 1 (stores .a) (s.hosts .a).disk := by
  obtain ⟨e, he, -⟩ := Res.any_eq_true.mp sample_opens
  obtain ⟨file, hwrites, hopening⟩ : ∃ file, e.writes = [.opening file] ∧ e.opening.isSome = true := by
    obtain ⟨_, -, hfunded⟩ := Res.bind_eq_ok.mp he
    obtain ⟨_, -, hproposed⟩ := Res.bind_eq_ok.mp hfunded
    obtain ⟨f, -, heffect⟩ := Res.bind_eq_ok.mp hproposed
    injection heffect with heffect
    rw [← heffect]
    exact ⟨_, rfl, rfl⟩
  obtain ⟨ls, σ, hmakes, hrun⟩ := Store.write_makes (s := .start Content 1) rfl (path_opening 1)
    (opening_isTarget 1) rfl (.opening file)
  have hcarried : Store.Carried (e.writes.map (callOf 1)) (ls ++ []) := by
    rw [hwrites]
    exact .cons hmakes .nil
  rw [← List.append_nil ls] at hrun
  have hkept := Kept.start (fun _ => 1) he hcarried hrun
  exact ⟨_, _, hkept, hopening, (stores_refine hkept).2 .a⟩

end

end Handshake

end Hitch

end Sidestr
