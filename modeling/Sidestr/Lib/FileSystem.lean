/-
# Files and crashes

A file system as one process uses it: names lead to files, and both reach the
disk only when they are synced. After a crash a name leads to what the disk had
for it or to anything it led to since its directory was last synced, each name
on its own; a file that was synced keeps its content, any other may hold
anything. `Holds` says of chosen names that whatever a crash makes of them is
allowed; each operation has its rule.

Key definitions: `Fs`, `Fs.Crash`, `Fs.look`, `Fs.Holds`, `Fs.Private`.
Key theorems: `Fs.Holds.create`, `Fs.Holds.fill`, `Fs.Holds.rename`,
`Fs.Holds.unlink`, `Fs.Holds.settle`, `Fs.Holds.crash_look`, `Fs.Holds.look`.
-/
import Mathlib.Data.List.Basic
import Mathlib.Logic.Function.Basic

namespace Sidestr

/-- A file's content, and whether it is on the disk. -/
structure File (D : Type) where
  content : D
  synced : Bool

/-- Files by number, and what each name leads to. -/
structure Fs (P D : Type) where
  files : ℕ → Option (File D)
  /-- A number no file has had. -/
  next : ℕ
  names : P → Option ℕ
  /-- What a crash may make a name lead to. -/
  kept : P → List (Option ℕ)

namespace Fs

variable {P D : Type} [DecidableEq P]

def empty : Fs P D := ⟨fun _ => none, 0, fun _ => none, fun _ => [none]⟩

/-! ### Operations -/

/-- The name leads elsewhere; the disk may keep either. -/
def setName (fs : Fs P D) (p : P) (e : Option ℕ) : Fs P D :=
  { fs with
    names := Function.update fs.names p e
    kept := Function.update fs.kept p (e :: fs.kept p) }

/-- A new file under a new name. -/
def create (fs : Fs P D) (p : P) (d : D) : Fs P D :=
  { fs.setName p (some fs.next) with
    files := Function.update fs.files fs.next (some ⟨d, false⟩)
    next := fs.next + 1 }

def fill (fs : Fs P D) (i : ℕ) (d : D) : Fs P D :=
  { fs with files := Function.update fs.files i (some ⟨d, false⟩) }

def syncFile (fs : Fs P D) (i : ℕ) : Fs P D :=
  { fs with files := Function.update fs.files i ((fs.files i).map fun f => ⟨f.content, true⟩) }

/-- The second name leads where the first did. -/
def rename (fs : Fs P D) (p q : P) : Fs P D := (fs.setName q (fs.names p)).setName p none

def unlink (fs : Fs P D) (p : P) : Fs P D := fs.setName p none

/-- The names of a directory are on the disk as they are. -/
def syncDir (fs : Fs P D) (inDir : P → Bool) : Fs P D :=
  { fs with kept := fun p => if inDir p then [fs.names p] else fs.kept p }

/-- What a crash leaves. -/
structure Crash (fs fs' : Fs P D) : Prop where
  names : ∀ p, fs'.names p ∈ fs.kept p
  kept : ∀ p, fs'.kept p = [fs'.names p]
  files : ∀ i d, fs.files i = some ⟨d, true⟩ → fs'.files i = some ⟨d, true⟩
  next : fs'.next = fs.next

/-- The file under a name. -/
def look (fs : Fs P D) (p : P) : Option D := (fs.names p).bind fun i => (fs.files i).map File.content

/-! ### What holds of some names -/

/-- The entry is nothing or a synced file, as allowed. -/
def Shows (fs : Fs P D) (A : Option D → Prop) : Option ℕ → Prop
  | none => A none
  | some i => ∃ d, fs.files i = some ⟨d, true⟩ ∧ A (some d)

/-- Whatever a crash makes of a chosen name is allowed. -/
structure Holds (T : P → Prop) (A : P → Option D → Prop) (fs : Fs P D) : Prop where
  current : ∀ p, T p → fs.names p ∈ fs.kept p
  entries : ∀ p, T p → ∀ e ∈ fs.kept p, fs.Shows (A p) e
  below : ∀ p, T p → ∀ i, some i ∈ fs.kept p → i < fs.next

/-- No chosen name can come to lead to the file. -/
def Private (T : P → Prop) (fs : Fs P D) (i : ℕ) : Prop := ∀ p, T p → some i ∉ fs.kept p

variable {T : P → Prop} {A B : P → Option D → Prop} {fs fs' : Fs P D}

omit [DecidableEq P] in
theorem Shows.mono {S S' : Option D → Prop} {e : Option ℕ} (h : fs.Shows S e)
    (hsub : ∀ v, S v → S' v) : fs.Shows S' e := by
  cases e with
  | none => exact hsub _ h
  | some i =>
    obtain ⟨d, hfile, hd⟩ := h
    exact ⟨d, hfile, hsub _ hd⟩

omit [DecidableEq P] in
/-- The same files show the same. -/
theorem Shows.files {S : Option D → Prop} {e : Option ℕ} (h : fs.Shows S e)
    (hfiles : ∀ i d, e = some i → fs.files i = some ⟨d, true⟩ → fs'.files i = some ⟨d, true⟩) :
    fs'.Shows S e := by
  cases e with
  | none => exact h
  | some i =>
    obtain ⟨d, hfile, hd⟩ := h
    exact ⟨d, hfiles i d rfl hfile, hd⟩

omit [DecidableEq P] in
theorem Holds.mono (h : Holds T A fs) (hsub : ∀ p v, A p v → B p v) : Holds T B fs where
  current := h.current
  entries p hp e he := (h.entries p hp e he).mono (hsub p)
  below := h.below

omit [DecidableEq P] in
/-- What is under a chosen name is allowed. -/
theorem Holds.look (h : Holds T A fs) {p : P} (hp : T p) : A p (fs.look p) := by
  have hshow := h.entries p hp _ (h.current p hp)
  unfold Fs.look
  cases hname : fs.names p with
  | none =>
    rw [hname] at hshow
    exact hshow
  | some i =>
    rw [hname] at hshow
    obtain ⟨d, hfile, hd⟩ := hshow
    rw [Option.bind_some, hfile]
    exact hd

omit [DecidableEq P] in
/-- A chosen name leads nowhere or to a synced file. -/
theorem Holds.names (h : Holds T A fs) {p : P} (hp : T p) :
    fs.names p = none ∨ ∃ i d, fs.names p = some i ∧ fs.files i = some ⟨d, true⟩ := by
  have hshow := h.entries p hp _ (h.current p hp)
  cases hname : fs.names p with
  | none => exact .inl rfl
  | some i =>
    rw [hname] at hshow
    obtain ⟨d, hfile, -⟩ := hshow
    exact .inr ⟨i, d, rfl, hfile⟩

theorem setName_names_self (p : P) (e : Option ℕ) : (fs.setName p e).names p = e := by
  unfold setName
  exact Function.update_self p e fs.names

theorem setName_names_of_ne {p q : P} (h : q ≠ p) (e : Option ℕ) :
    (fs.setName p e).names q = fs.names q := by
  unfold setName
  exact Function.update_of_ne h e fs.names

theorem setName_kept_self (p : P) (e : Option ℕ) : (fs.setName p e).kept p = e :: fs.kept p := by
  unfold setName
  exact Function.update_self p (e :: fs.kept p) fs.kept

theorem setName_kept_of_ne {p q : P} (h : q ≠ p) (e : Option ℕ) :
    (fs.setName p e).kept q = fs.kept q := by
  unfold setName
  exact Function.update_of_ne h (e :: fs.kept p) fs.kept

/-- Other names may lead anywhere. -/
theorem Holds.setName_other (h : Holds T A fs) {p : P} (hp : ¬ T p) (e : Option ℕ) :
    Holds T A (fs.setName p e) where
  current q hq := by
    have hne : q ≠ p := fun hc => hp (hc ▸ hq)
    rw [setName_names_of_ne hne, setName_kept_of_ne hne]
    exact h.current q hq
  entries q hq e' he' := by
    have hne : q ≠ p := fun hc => hp (hc ▸ hq)
    rw [setName_kept_of_ne hne] at he'
    exact h.entries q hq e' he'
  below q hq i hi := by
    have hne : q ≠ p := fun hc => hp (hc ▸ hq)
    rw [setName_kept_of_ne hne] at hi
    exact h.below q hq i hi

/-- A chosen name may lead to what it may show. -/
theorem Holds.setName (h : Holds T A fs) {p : P} {e : Option ℕ} (he : fs.Shows (A p) e)
    (hbelow : ∀ i, e = some i → i < fs.next) : Holds T A (fs.setName p e) where
  current q hq := by
    by_cases hqp : q = p
    · rw [hqp, setName_names_self, setName_kept_self]
      exact List.mem_cons_self
    · rw [setName_names_of_ne hqp, setName_kept_of_ne hqp]
      exact h.current q hq
  entries q hq e' he' := by
    by_cases hqp : q = p
    · subst hqp
      rw [setName_kept_self] at he'
      rcases List.mem_cons.mp he' with rfl | he'
      · exact he
      · exact h.entries q hq e' he'
    · rw [setName_kept_of_ne hqp] at he'
      exact h.entries q hq e' he'
  below q hq i hi := by
    by_cases hqp : q = p
    · subst hqp
      rw [setName_kept_self] at hi
      rcases List.mem_cons.mp hi with hi | hi
      · exact hbelow i hi.symm
      · exact h.below q hq i hi
    · rw [setName_kept_of_ne hqp] at hi
      exact h.below q hq i hi

omit [DecidableEq P] in
/-- What a name leads to shows what is under the name and no more. -/
theorem Shows.look {S : Option D → Prop} {e : Option ℕ} (h : fs.Shows S e) {p : P}
    (he : e = fs.names p) : fs.Shows (fun v => v = fs.look p ∧ S v) e := by
  cases e with
  | none =>
    refine ⟨?_, h⟩
    unfold Fs.look
    rw [← he]
    rfl
  | some i =>
    obtain ⟨d, hfile, hd⟩ := h
    refine ⟨d, hfile, ?_, hd⟩
    unfold Fs.look
    rw [← he, Option.bind_some, hfile]
    rfl

/-- A new file is no chosen name's. -/
theorem Holds.create (h : Holds T A fs) {p : P} (hp : ¬ T p) (d : D) :
    Holds T A (fs.create p d) ∧ Private T (fs.create p d) fs.next := by
  have hset := h.setName_other hp (some fs.next)
  have hkept : ∀ q, T q → (fs.create p d).kept q = fs.kept q := by
    intro q hq
    have hne : q ≠ p := by
      rintro rfl
      exact hp hq
    exact setName_kept_of_ne hne _
  refine ⟨⟨hset.current, fun q hq e he => ?_, fun q hq i hi => ?_⟩, fun q hq hmem => ?_⟩
  · rw [hkept q hq] at he
    refine (h.entries q hq e he).files fun i d' hi hfile => ?_
    have hlt := h.below q hq i (hi ▸ he)
    exact (Function.update_of_ne (by omega) _ _).trans hfile
  · rw [hkept q hq] at hi
    exact Nat.lt_succ_of_lt (h.below q hq i hi)
  · rw [hkept q hq] at hmem
    exact Nat.lt_irrefl _ (h.below q hq _ hmem)

omit [DecidableEq P] in
theorem Holds.fill (h : Holds T A fs) {i : ℕ} (hi : Private T fs i) (d : D) :
    Holds T A (fs.fill i d) where
  current := h.current
  entries p hp e he := by
    refine (h.entries p hp e he).files fun j d' hj hfile => ?_
    have hne : j ≠ i := by
      rintro rfl
      exact hi p hp (hj ▸ he)
    exact (Function.update_of_ne hne _ _).trans hfile
  below := h.below

omit [DecidableEq P] in
theorem Holds.syncFile (h : Holds T A fs) (i : ℕ) : Holds T A (fs.syncFile i) where
  current := h.current
  entries p hp e he := by
    refine (h.entries p hp e he).files fun j d hj hfile => ?_
    by_cases hji : j = i
    · subst hji
      unfold Fs.syncFile
      rw [hfile]
      exact Function.update_self j _ _
    · exact (Function.update_of_ne hji _ _).trans hfile
  below := h.below

/-- A synced file takes a chosen name. -/
theorem Holds.rename (h : Holds T A fs) {p q : P} (hp : ¬ T p) {i : ℕ} (hname : fs.names p = some i)
    {d : D} (hfile : fs.files i = some ⟨d, true⟩) (hi : i < fs.next) (hd : A q (some d)) :
    Holds T A (fs.rename p q) := by
  unfold Fs.rename
  rw [hname]
  have hshow : fs.Shows (A q) (some i) := ⟨d, hfile, hd⟩
  refine Holds.setName_other (h.setName hshow fun j hj => ?_) hp none
  rw [← Option.some.inj hj]
  exact hi

theorem Holds.unlink (h : Holds T A fs) {p : P} (hp : A p none) : Holds T A (fs.unlink p) :=
  h.setName hp fun _ hi => by cases hi

theorem Holds.unlink_other (h : Holds T A fs) {p : P} (hp : ¬ T p) : Holds T A (fs.unlink p) :=
  h.setName_other hp none

omit [DecidableEq P] in
theorem Holds.syncDir (h : Holds T A fs) (inDir : P → Bool) : Holds T A (fs.syncDir inDir) := by
  have hsub : ∀ p, T p → ∀ e ∈ (fs.syncDir inDir).kept p, e ∈ fs.kept p := by
    intro p hp e he
    unfold Fs.syncDir at he
    dsimp only at he
    split at he
    · rw [List.mem_singleton.mp he]
      exact h.current p hp
    · exact he
  refine ⟨fun p hp => ?_, fun p hp e he => h.entries p hp e (hsub p hp e he),
    fun p hp i hi => h.below p hp i (hsub p hp _ hi)⟩
  unfold Fs.syncDir
  dsimp only
  split
  · exact List.mem_singleton_self _
  · exact h.current p hp

omit [DecidableEq P] in
/-- Once its directory is synced, a name shows what is under it and no more. -/
theorem Holds.settle (h : Holds T A fs) {inDir : P → Bool} {p : P} (hp : inDir p = true) :
    Holds T (fun q v => (q = p → v = fs.look p) ∧ A q v) (fs.syncDir inDir) := by
  have hall := h.syncDir inDir
  refine ⟨hall.current, fun q hq e he => ?_, hall.below⟩
  have hshow := hall.entries q hq e he
  by_cases hqp : q = p
  · subst hqp
    have hkept : (fs.syncDir inDir).kept q = [fs.names q] := if_pos hp
    rw [hkept, List.mem_singleton] at he
    exact (hshow.look he).mono fun v hv => ⟨fun _ => hv.1, hv.2⟩
  · exact hshow.mono fun v hv => ⟨fun hc => absurd hc hqp, hv⟩

omit [DecidableEq P] in
theorem Holds.crash (h : Holds T A fs) (hc : Crash fs fs') : Holds T A fs' where
  current p _ := by
    rw [hc.kept]
    exact List.mem_singleton_self _
  entries p hp e he := by
    rw [hc.kept, List.mem_singleton] at he
    rw [he]
    exact (h.entries p hp _ (hc.names p)).files fun i d _ hfile => hc.files i d hfile
  below p hp i hi := by
    rw [hc.kept, List.mem_singleton] at hi
    rw [hc.next]
    exact h.below p hp i (hi ▸ hc.names p)

omit [DecidableEq P] in
/-- After a crash, each name shows what is under it and no more. -/
theorem Holds.crash_look (h : Holds T A fs) (hc : Crash fs fs') :
    Holds T (fun q v => v = fs'.look q ∧ A q v) fs' := by
  have hall := h.crash hc
  refine ⟨hall.current, fun q hq e he => ?_, hall.below⟩
  have hshow := hall.entries q hq e he
  rw [hc.kept, List.mem_singleton] at he
  exact hshow.look he

end Fs

end Sidestr
