import Briefs.File.Shift
import Briefs.File.ZeroRange
import Briefs.Lib.Run

/-!
# Ranges of a file

`fallocateOp` preallocates a range, or punches, zeroes, collapses or inserts it. Together with
`writeFileData` and `truncateInode` these are the operations on files: a run of them keeps a
volume well formed, as long as two mistakes of `fallocateOp` are not met.
-/

namespace Briefs.File

open Lib

def fallocPunchHole : ℕ := 0x02
def fallocCollapseRange : ℕ := 0x08
def fallocZeroRange : ℕ := 0x10
def fallocInsertRange : ℕ := 0x20

section Calls

variable (env : Env)

/-- What `fallocateOp` does without a flag for the range. -/
def preallocateOpened (i : Inode) (off endOff mode : ℕ) : Call FS Unit := do
  let i ← (if isInlineData i ∧ inlineDataMax < endOff then orRollback (promoteInlineData env i)
    else pure i)
  preallocate env i off endOff mode

def fallocateOpened (i : Inode) (off size mode : ℕ) : Call FS Unit :=
  if mode &&& fallocPunchHole ≠ 0 then punchHole env i off size
  else if mode &&& fallocCollapseRange ≠ 0 then collapseRangeOp env i off size
  else if mode &&& fallocInsertRange ≠ 0 then insertRangeOp env i off size
  else if mode &&& fallocZeroRange ≠ 0 then zeroRangeOp env i off size mode
  else preallocateOpened env i off (off + size) mode

def fallocateOp (ino off size mode : ℕ) : Call FS Unit := do
  let s ← Call.read
  Call.when (s.readOnly ∨ s.shutdown) (Call.fail (.errno .erofs))
  Call.when (bitClear mode (fallocKeepSize ||| fallocPunchHole ||| fallocCollapseRange |||
    fallocZeroRange ||| fallocInsertRange) ≠ 0) (Call.fail (.errno .eopnotsupp))
  Call.when (mode &&& fallocPunchHole ≠ 0 ∧ mode &&& fallocKeepSize = 0)
    (Call.fail (.errno .einval))
  Call.when (size = 0) (Call.fail (.errno .einval))
  Call.when (maxBytes env < off ∨ maxBytes env - off < size) (Call.fail (.errno .efbig))
  Call.when (userFlagsImmutable env (s.inodes ino)) (Call.fail (.errno .eperm))
  let i ← removePrivs env (s.inodes ino)
  resetAllocated
  fallocateOpened env i off size mode

end Calls

variable {env : Env} {s t u : FS} {i : Inode} {ino off size mode k : ℕ} {r : Unit}

/-- The range lies among the bytes that the inode holds. -/
def Overlays (i : Inode) (endOff : ℕ) : Prop := isInlineData i ∧ endOff ≤ inlineDataMax

instance (i : Inode) (endOff : ℕ) : Decidable (Overlays i endOff) :=
  inferInstanceAs (Decidable (_ ∧ _))

theorem preallocateOpened_spec {endOff : ℕ} (h : Opened env s ino i u)
    (hplain : ¬Overlays i endOff) (hend : endOff ≤ maxBytes env)
    (hcall : preallocateOpened env i off endOff mode u = (.ok r, t)) :
    Outcome env s ino (sizeAfter mode (s.inodes ino).fileSize endOff)
        (content s (s.inodes ino)) t ∧
      ∀ k, off ≤ k * blockSize + (blockSize - 1) → k * blockSize < endOff →
        ∃ p f, Leads t (t.inodes ino) k p f := by
  have hfile := h.fileOk
  rw [← h.fileSize, ← h.content_eq]
  obtain ⟨j, v, hfirst, hcall⟩ := Call.bind_eq_ok hcall
  obtain ⟨exts, nodes, hlifted⟩ : ∃ exts nodes, Lifted env u i v j exts nodes := by
    rcases hfile.form with hin | ⟨exts, nodes, hbacked⟩
    · rw [if_pos ⟨hin.flag, Nat.not_le.mp fun hle => hplain ⟨hin.flag, hle⟩⟩] at hfirst
      obtain ⟨exts, hlifted⟩ := hin.small.lifted h.ok.room (orRollback_eq_ok hfirst)
      exact ⟨exts, [], hlifted⟩
    · rw [if_neg fun hin => hbacked.data hin.1] at hfirst
      obtain ⟨rfl, rfl⟩ := Call.pure_eq_ok hfirst
      exact ⟨exts, nodes, hbacked.lifted h.ok.room⟩
  obtain ⟨i', exts', nodes', heffect, hbacked', hkept, hsize', hle, hbytes', hcovers, -⟩ :=
    preallocate_spec hlifted.room hlifted.backed (hlifted.size.trans_le hfile.size) hend hcall
  have heffect' := hlifted.effect t i' heffect fun b hb =>
    hbacked'.owned_iff.mpr (.inr (hkept b hb))
  have hout := h.outcome_backed heffect' hbacked' hle
  rw [hsize', hlifted.size, hbytes', hlifted.bytes] at hout
  refine ⟨hout, fun k hlow hhigh => ?_⟩
  obtain ⟨p, f, hk⟩ := hcovers k hlow hhigh
  exact ⟨p, f, h.self heffect' ▸ hbacked'.leads_iff.mpr hk⟩

theorem Opened.overlays_iff {endOff : ℕ} (h : Opened env s ino i u) :
    Overlays i endOff ↔ Overlays (s.inodes ino) endOff := by
  have hsame := h.same.trans (h.calm.same ino h.regular)
  have hflags : i.flags = (s.inodes ino).flags := by
    rw [SameFile] at hsame
    rw [hsame]
  rw [Overlays, isInlineData, hflags]
  rfl

theorem fallocateOp_eq_ok (hok : Ok env s) (hfile : isFile (s.inodes ino))
    (h : fallocateOp env ino off size mode s = (.ok r, t)) :
    ∃ i u, Opened env s ino i u ∧ 0 < size ∧ off + size ≤ maxBytes env ∧
      fallocateOpened env i off size mode u = (.ok r, t) := by
  unfold fallocateOp at h
  obtain ⟨s₀, s₁, hread, h⟩ := Call.bind_eq_ok h
  cases hread
  obtain ⟨-, h⟩ := Call.checked h
  obtain ⟨-, h⟩ := Call.checked h
  obtain ⟨-, h⟩ := Call.checked h
  obtain ⟨hsize, h⟩ := Call.checked h
  obtain ⟨hmax, h⟩ := Call.checked h
  obtain ⟨-, h⟩ := Call.checked h
  obtain ⟨i, u, hprivs, h⟩ := Call.bind_eq_ok h
  obtain ⟨⟨⟩, v, hreset, h⟩ := Call.bind_eq_ok h
  exact ⟨i, v, (removePrivs_spec hok hfile hprivs).resetAllocated hreset, by omega, by omega, h⟩

/-- A well-formed volume: of its files, those with their bytes in the inode count no extents. -/
structure Sound (env : Env) (s : FS) : Prop where
  ok : Ok env s
  neat : ∀ ino, isFile (s.inodes ino) → Neat (s.inodes ino)

theorem Fresh.sound (h : Fresh env s) : Sound env s := by
  refine ⟨h.ok, fun ino hfile => ?_⟩
  obtain ⟨m, now, hnew⟩ := h.files ino hfile
  rw [hnew]
  exact (backed_newInode env s ino m now).neat

theorem Outcome.sound {n : ℕ} {bytes : ℕ → UInt8} (h : Outcome env s ino n bytes t)
    (hs : Sound env s) (hfile : isFile (s.inodes ino)) : Sound env t := by
  refine ⟨h.ok, fun k hk => ?_⟩
  by_cases hino : k = ino
  · rw [hino]
    exact h.neat (hs.neat ino hfile)
  · have hk := h.files k hk
    exact (neat_same (h.others k hino hk).1).mpr (hs.neat k hk)

theorem Outcome.readsAs {n : ℕ} {bytes : ℕ → UInt8} (h : Outcome env s ino n bytes t) :
    ReadsAs t ino n bytes := by
  have hafter := (h.ok.file ino h.file).readsAs
  rwa [h.size, h.bytes] at hafter

theorem keepsSize_sizeAfter (mode m n : ℕ) :
    sizeAfter mode m n = if keepsSize mode then m else max m n := by
  by_cases hkeep : keepsSize mode
  · simp [sizeAfter, hkeep]
  · simp only [sizeAfter, hkeep, not_false_eq_true, true_and, if_false]
    split_ifs <;> omega

/-! ### Runs -/

/-- The operations on a file. -/
inductive FileOp
  | write (data : Bytes) (off : ℕ)
  | truncate (newSize : ℕ)
  | fallocate (off size mode : ℕ)

def FileOp.perform (env : Env) (ino : ℕ) : FileOp → Call FS Unit
  | .write data off => do let _ ← writeFileData env ino data off
  | .truncate newSize => truncateInode env ino newSize
  | .fallocate off size mode => fallocateOp env ino off size mode

/-- An operation on some file succeeds. -/
def Steps (env : Env) (s : FS) (op : ℕ × FileOp) (t : FS) : Prop :=
  isFile (s.inodes op.1) ∧ op.2.perform env op.1 s = (.ok (), t)

/-- A preallocation without a flag for the range. -/
def isPlain (mode : ℕ) : Prop :=
  mode &&& fallocPunchHole = 0 ∧ mode &&& fallocCollapseRange = 0 ∧
    mode &&& fallocInsertRange = 0 ∧ mode &&& fallocZeroRange = 0

def isInsert (mode : ℕ) : Prop :=
  mode &&& fallocPunchHole = 0 ∧ mode &&& fallocCollapseRange = 0 ∧ mode &&& fallocInsertRange ≠ 0

/-- The operation does not preallocate inside the bytes of an inode, and does not insert into a
file that has no room below the largest size. -/
def Harmless (s : FS) (op : ℕ × FileOp) : Prop :=
  match op.2 with
  | .fallocate off size mode =>
    (isPlain mode → ¬Overlays (s.inodes op.1) (off + size)) ∧
      (isInsert mode → (s.inodes op.1).fileSize + size ≤ maxFileSize)
  | _ => True

theorem fallocateOp_outcome (hs : Sound env s) (hfile : isFile (s.inodes ino))
    (hsafe : Harmless s (ino, .fallocate off size mode))
    (h : fallocateOp env ino off size mode s = (.ok r, t)) :
    ∃ n bytes, Outcome env s ino n bytes t := by
  obtain ⟨i, u, hopened, hsize, hend, hcall⟩ := fallocateOp_eq_ok hs.ok hfile h
  unfold fallocateOpened at hcall
  split_ifs at hcall with hpunch hcollapse hinsert hzero
  · exact ⟨_, _, (punchHole_spec hopened hsize hcall).1⟩
  · exact ⟨_, _, (collapseRangeOp_spec hopened hcall).2.2.2.1⟩
  · exact ⟨_, _, (insertRangeOp_spec hopened
      (hsafe.2 ⟨not_not.mp hpunch, not_not.mp hcollapse, hinsert⟩) hcall).2.2.2.1⟩
  · exact ⟨_, _, (zeroRangeOp_spec hopened hend hcall).1⟩
  · refine ⟨_, _, (preallocateOpened_spec hopened ?_ hend hcall).1⟩
    rw [hopened.overlays_iff]
    exact hsafe.1 ⟨not_not.mp hpunch, not_not.mp hcollapse, not_not.mp hinsert, not_not.mp hzero⟩

theorem Steps.sound {op : ℕ × FileOp} (h : Steps env s op t) (hsafe : Harmless s op)
    (hs : Sound env s) : Sound env t := by
  obtain ⟨ino, op⟩ := op
  obtain ⟨hfile, hcall⟩ := h
  cases op with
  | write data off =>
    obtain ⟨n, u, hwrite, hcall⟩ := Call.bind_eq_ok hcall
    obtain ⟨-, rfl⟩ := Call.pure_eq_ok hcall
    by_cases hdata : data = []
    · rw [writeFileData, if_pos hdata] at hwrite
      obtain ⟨-, rfl⟩ := Call.pure_eq_ok hwrite
      exact hs
    · exact (writeFileData_spec hs.ok hfile hdata hwrite).1.sound hs hfile
  | truncate newSize =>
    exact (truncateInode_spec hs.ok hfile (hs.neat ino hfile) hcall).1.sound hs hfile
  | fallocate off size mode =>
    obtain ⟨n, bytes, hout⟩ := fallocateOp_outcome hs hfile hsafe hcall
    exact hout.sound hs hfile

theorem steps_perform (env : Env) (s : FS) (op : ℕ × FileOp) (hfile : isFile (s.inodes op.1))
    (h : (op.2.perform env op.1 s).1 = .ok ()) : Steps env s op (op.2.perform env op.1 s).2 :=
  ⟨hfile, Prod.ext h rfl⟩

/-- A file of the largest size, with data at its front. -/
def stretched : FS :=
  ((FileOp.truncate (2 ^ 63 - 1)).perform plainEnv 1
    ((FileOp.write (List.replicate 300 7) 0).perform plainEnv 1 freshVolume).2).2

/-- The same file with a block inserted in front. -/
def pushed : FS := (fallocateOp plainEnv 1 0 4096 fallocInsertRange stretched).2

theorem run_pushed : Run (Steps plainEnv) freshVolume
      [(1, .write (List.replicate 300 7) 0), (1, .truncate (2 ^ 63 - 1))] stretched ∧
    Steps plainEnv stretched (1, .fallocate 0 4096 fallocInsertRange) pushed := by
  have hwrite := steps_perform plainEnv freshVolume (1, .write (List.replicate 300 7) 0) (by decide)
    (by decide +kernel)
  have htruncate := steps_perform plainEnv
    ((FileOp.write (List.replicate 300 7) 0).perform plainEnv 1 freshVolume).2
    (1, .truncate (2 ^ 63 - 1)) (by decide +kernel) (by decide +kernel)
  exact ⟨.snoc (.snoc (.nil _) hwrite) htruncate, steps_perform plainEnv stretched
    (1, .fallocate 0 4096 fallocInsertRange) (by decide +kernel) (by decide +kernel)⟩

/-- A volume whose first file has 10000 bytes preallocated. -/
def preallocated : FS := (fallocateOp plainEnv 1 0 10000 0 freshVolume).2

/-- Calls on this volume. -/
def sampleOps : List FileOp :=
  [.truncate 5000, .fallocate 0 5000 3, .fallocate 1000 8000 fallocZeroRange,
    .fallocate 0 4096 fallocInsertRange]

theorem performs_preallocated : (fallocateOp plainEnv 1 0 10000 0 freshVolume).1 = .ok () ∧
    isFile (preallocated.inodes 1) ∧ (preallocated.inodes 1).fileSize = 10000 ∧
    ∀ op ∈ sampleOps, (op.perform plainEnv 1 preallocated).1 = .ok () := by decide +kernel

theorem steps_preallocated :
    Steps plainEnv freshVolume (1, .fallocate 0 10000 0) preallocated :=
  steps_perform _ _ _ (by decide) performs_preallocated.1

theorem steps_sample (op : FileOp) (hop : op ∈ sampleOps) :
    Steps plainEnv preallocated (1, op) (op.perform plainEnv 1 preallocated).2 :=
  steps_perform _ _ _ performs_preallocated.2.1 (performs_preallocated.2.2.2 op hop)

theorem harmless_preallocated : Harmless freshVolume (1, .fallocate 0 10000 0) :=
  ⟨fun _ => by decide, fun h => absurd rfl h.2.2⟩

theorem sound_preallocated : Sound plainEnv preallocated :=
  steps_preallocated.sound harmless_preallocated fresh_freshVolume.sound

/-- The file has the size `n` and reads as `g` makes of its bytes, its blocks have moved, and its
extents are in order. -/
structure Shifted (env : Env) (s : FS) (ino n : ℕ) (g : (ℕ → UInt8) → ℕ → UInt8)
    (M : ℕ → ℕ → Prop) (t : FS) : Prop where
  sound : Sound env t
  size : (t.inodes ino).fileSize = n
  bytes : ∃ old, ReadsAs s ino (s.inodes ino).fileSize old ∧ ReadsAs t ino n (g old)
  moved : Moved env s ino t M
  sorted : ∃ tree, collectExtentTree t.dev (t.inodes ino) = .ok tree ∧ Sorted tree.exts

abbrev Collapsed (env : Env) (s : FS) (ino off size : ℕ) (t : FS) : Prop :=
  Shifted env s ino ((s.inodes ino).fileSize - size)
    (fun old pos => if pos < off then old pos else old (pos + size))
    (Collapses (off / blockSize) (size / blockSize)) t

abbrev Inserted (env : Env) (s : FS) (ino off size : ℕ) (t : FS) : Prop :=
  Shifted env s ino ((s.inodes ino).fileSize + size)
    (fun old pos => if pos < off then old pos else if pos < off + size then 0 else old (pos - size))
    (Inserts (off / blockSize) (size / blockSize)) t

theorem Outcome.shifted {n : ℕ} {g : (ℕ → UInt8) → ℕ → UInt8} {M : ℕ → ℕ → Prop}
    (h : Outcome env s ino n (g (content s (s.inodes ino))) t) (hs : Sound env s)
    (hfile : isFile (s.inodes ino)) (hmoved : Moved env s ino t M) : Shifted env s ino n g M t :=
  ⟨h.sound hs hfile, h.size, ⟨_, (hs.ok.file ino hfile).readsAs, h.readsAs⟩, hmoved,
    (h.ok.file ino h.file).sorted⟩

theorem fallocateOp_collapsed (hs : Sound env s) (hfile : isFile (s.inodes ino))
    (h : fallocateOp env ino off size fallocCollapseRange s = (.ok r, t)) :
    Collapsed env s ino off size t := by
  obtain ⟨i, u, hopened, -, -, hcall⟩ := fallocateOp_eq_ok hs.ok hfile h
  obtain ⟨-, -, -, hout, hmoved⟩ := collapseRangeOp_spec hopened hcall
  exact hout.shifted hs hfile hmoved

end Briefs.File
