import Briefs.Alloc.Search
import Briefs.File.Fallocate

/-!
# Files as byte strings

What the volume is for: every file is a byte string, and an operation on a file changes that
string and no other. `FileOp.effect` says how. A run of operations on the volume, with its
allocator, its extents, index nodes and inline regions, is a run of these effects, also where
`fstrimOp` (`ioctl_mount.go`) punches free blocks out of the backing file in between. Sums of
64-bit offsets and lengths do not wrap there, since they are taken in blocks.
-/

namespace Briefs.File

open Lib Alloc

/-! ### Discarding free blocks -/

structure FsTrimRange where
  start : ℕ
  length : ℕ
  minlen : ℕ

/-- A trim in blocks, with the end of its range. -/
structure TrimBlocks where
  start : ℕ
  stop : ℕ
  minlen : ℕ

/-- The part of a run in the range, if both are long enough. -/
def clip (bounds : TrimBlocks) (run : ℕ × ℕ) : Option (ℕ × ℕ) :=
  let ds := max run.1 bounds.start
  let de := min (run.1 + run.2) bounds.stop
  if bounds.minlen ≤ run.2 ∧ ds < de ∧ bounds.minlen ≤ de - ds then some (ds, de - ds) else none

/-- The runs punched so far, and the error of the punch that failed. -/
structure Trimmed where
  punched : List (ℕ × ℕ)
  err : Option Errno

/-- The visitor of `fstrimOp`. `discard` is the error of a punch, where `ENOSYS` and `ENOTTY`
are `EOPNOTSUPP`. -/
def trimRun (discard : ℕ → ℕ → Option Errno) (bounds : TrimBlocks) (acc : Trimmed)
    (runStart runLen : ℕ) : Trimmed × Bool :=
  match clip bounds (runStart, runLen) with
  | none => (acc, true)
  | some run =>
    match discard run.1 run.2 with
    | some e => ({ acc with err := some e }, false)
    | none => ({ acc with punched := acc.punched ++ [run] }, true)

def trimFreeRuns {σ : Type} (a : Allocator) (visit : σ → ℕ → ℕ → σ × Bool) (init : σ) : σ :=
  if a.bitmap.l0 = [] then init else a.bitmap.scanMaximalRuns visit 0 init

section Calls

variable (env : Env) (discard : ℕ → ℕ → Option Errno) (r : FsTrimRange) (s : FS)

def trimBounds : TrimBlocks where
  start := r.start / blockSize
  stop := min (r.start / blockSize + r.length / blockSize) s.dataAlloc.bitmap.blockCount
  minlen := if r.minlen / blockSize = 0 then 1 else r.minlen / blockSize

def punch (runs : List (ℕ × ℕ)) (dev : ℕ → Cell) : ℕ → Cell := fun b =>
  if ∃ run ∈ runs, env.dataRegionStart + run.1 ≤ b ∧ b < env.dataRegionStart + run.1 + run.2
  then .data zeroBlock else dev b

/-- `fstrimOp`: the error and the number of bytes discarded. -/
def fstrimOp : (Option Errno × ℕ) × FS :=
  let bounds := trimBounds r s
  if s.readOnly ∨ s.shutdown then ((some .erofs, 0), s)
  else if r.length < blockSize ∨ s.dataAlloc.bitmap.blockCount ≤ bounds.start ∨
      s.dataAlloc.bitmap.blockCount < r.minlen / blockSize then ((some .einval, 0), s)
  else if bounds.stop ≤ bounds.start then ((none, 0), s)
  else
    let done := trimFreeRuns s.dataAlloc (trimRun discard bounds) ⟨[], none⟩
    ((done.err, (done.punched.map fun run => run.2 * blockSize).sum),
      { s with dev := punch env done.punched s.dev })

end Calls

variable {env : Env} {discard : ℕ → ℕ → Option Errno} {r : FsTrimRange} {s t : FS} {ino b : ℕ}
  {bounds : TrimBlocks}

theorem clip_within {run x : ℕ × ℕ} (h : clip bounds run = some x) :
    run.1 ≤ x.1 ∧ x.1 + x.2 ≤ run.1 + run.2 ∧ 0 < x.2 := by
  obtain ⟨⟨-, hlt, -⟩, hx⟩ := Option.ite_none_right_eq_some.mp h
  obtain rfl := Option.some.inj hx
  dsimp only
  omega

/-- Whatever punches fail, only free blocks are punched. -/
theorem isFree_of_trimmed (a : Allocator) {run : ℕ × ℕ} (hrun : run ∈
      (trimFreeRuns a (trimRun discard bounds) ⟨[], none⟩).punched) :
    ∀ rel, run.1 ≤ rel → rel < run.1 + run.2 → a.isFree rel = true := by
  let P (_ : ℕ) (acc : Trimmed) : Prop :=
    ∀ run ∈ acc.punched, ∀ rel, run.1 ≤ rel → rel < run.1 + run.2 → a.isFree rel = true
  revert run
  change P 0 _
  unfold trimFreeRuns
  split_ifs with hempty
  · simp [P]
  refine (a.bitmap.scanMaximalRuns_rule _ 0 (P := P) ?_ ⟨[], none⟩ (by simp [P])).choose_spec
  intro e acc first len hP _ _ hbits
  unfold trimRun
  cases hclip : clip bounds (first, len) with
  | none => exact hP
  | some x =>
    dsimp only
    cases discard x.1 x.2 with
    | some e => exact hP
    | none =>
      obtain ⟨hstart, hstop, -⟩ := clip_within hclip
      refine List.forall_mem_append.mpr ⟨hP, List.forall_mem_singleton.mpr fun rel hlow hhigh => ?_⟩
      exact hbits rel (by omega) (by omega)

variable (env discard r s) in
theorem fstrimOp_frame : ∃ dev, (fstrimOp env discard r s).2 = { s with dev := dev } ∧ ∀ b,
    dev b = s.dev b ∨ ∃ rel, b = env.dataRegionStart + rel ∧ s.dataAlloc.isFree rel = true := by
  unfold fstrimOp
  dsimp only
  split_ifs
  iterate 3 exact ⟨s.dev, rfl, fun b => .inl rfl⟩
  refine ⟨_, rfl, fun b => ?_⟩
  unfold punch
  split_ifs with hb
  · obtain ⟨run, hrun, hlow, hhigh⟩ := hb
    exact .inr ⟨b - env.dataRegionStart, by omega,
      isFree_of_trimmed s.dataAlloc hrun _ (by omega) (by omega)⟩
  · exact .inl rfl

/-- A trim leaves the volume well formed, and no file notices it. -/
theorem Sound.trimmed (hs : Sound env s) (h : (fstrimOp env discard r s).2 = t) :
    Sound env t ∧ t.inodes = s.inodes ∧
      ∀ ino, isFile (s.inodes ino) → content t (s.inodes ino) = content s (s.inodes ino) := by
  obtain ⟨dev, heq, hdev⟩ := fstrimOp_frame env discard r s
  obtain rfl : { s with dev := dev } = t := heq.symm.trans h
  have hframe := fun ino hfile => (hs.ok.file ino hfile).frame (t := { s with dev := dev })
    (fun b hb => (hdev b).resolve_right <| by
      have huse := (hs.ok.file ino hfile).inUse hb
      rintro ⟨rel, rfl, hfree⟩
      have hrel : rel ≠ 0 := fun hzero => absurd huse.region (by omega)
      exact huse.taken ⟨rel, hrel, rfl, hfree⟩)
    fun b hb =>
      have huse := (hs.ok.file ino hfile).inUse hb
      ⟨huse.region, huse.fits, huse.taken, huse.kept⟩
  refine ⟨⟨⟨⟨hs.ok.room.fits, hs.ok.room.idle⟩, hs.ok.number, fun ino hfile => (hframe ino hfile).1,
    ?_, hs.ok.chain, hs.ok.chainApart, ?_⟩, hs.neat⟩, rfl,
    fun ino hfile => (hframe ino hfile).2.2.1⟩
  · intro ino ino' b hfile hfile' hb hb'
    exact hs.ok.apart ino ino' b hfile hfile' (((hframe ino hfile).2.1 b).mp hb)
      (((hframe ino' hfile').2.1 b).mp hb')
  · intro ino ino' b hfile hb
    exact hs.ok.filesApart ino ino' b hfile (((hframe ino hfile).2.1 b).mp hb)

theorem visitAll_trimRun (runs : List (ℕ × ℕ)) (acc : Trimmed) :
    visitAll (trimRun (fun _ _ => none) bounds) acc runs =
      ({ acc with punched := acc.punched ++ runs.filterMap (clip bounds) }, true) := by
  induction runs generalizing acc with
  | nil => simp [visitAll]
  | cons run runs ih =>
    rw [visitAll, trimRun]
    cases hclip : clip bounds run with
    | none => simp [hclip, ih]
    | some x => simp [hclip, ih]

/-- A trim without an error punches exactly the parts inside the range of the maximal free
runs that are long enough before and after they are cut, and counts their bytes. -/
theorem fstrimOp_exact (hp : s.dataAlloc.bitmap.Sized) (hopen : s.dataAlloc.bitmap.l0 ≠ [])
    (hok : (fstrimOp env (fun _ _ => none) r s).1.1 = none) :
    ∃ runs : List (ℕ × ℕ), (fstrimOp env (fun _ _ => none) r s).1.2 =
        (runs.map fun run => run.2 * blockSize).sum ∧
      (fstrimOp env (fun _ _ => none) r s).2.dev = punch env runs s.dev ∧
      runs.Pairwise (fun x y => x.1 + x.2 < y.1) ∧
      ∀ x, x ∈ runs ↔ ∃ run, MaximalRun s.dataAlloc.bitmap.isFreeBlock run ∧
        clip (trimBounds r s) run = some x := by
  have hF := Pyramid.isFreeBlock_lt (p := s.dataAlloc.bitmap)
  revert hok
  unfold fstrimOp
  dsimp only
  split_ifs with hdead hinvalid hempty
  · simp
  · simp
  · simp only [trimBounds, blockSize] at hinvalid hempty
    omega
  intro _
  unfold trimFreeRuns
  rw [if_neg hopen]
  rcases hp.scanMaximalRuns (trimRun (fun _ _ => none) (trimBounds r s)) 0 ⟨[], none⟩
    with hall | ⟨-, -, -, hzero, -⟩
  · rw [hall, visitAll_trimRun]
    refine ⟨_, rfl, rfl, ?_, fun x => ?_⟩
    · refine List.Pairwise.filterMap _ ?_ (ascending_runsBelow hF _)
      intro run run' hlt x hx y hy
      have hx := clip_within hx
      have hy := clip_within hy
      omega
    · rw [List.nil_append, List.mem_filterMap]
      refine exists_congr fun run => and_congr_left fun _ => ?_
      exact ⟨fun hrun => ((mem_runsBelow hF).mp hrun).2,
        fun hrun => (mem_runsBelow hF).mpr ⟨hrun.lt hF, hrun⟩⟩
  · exact absurd hzero (lt_irrefl 0)

theorem fstrimOp_exact_fresh : ∃ runs : List (ℕ × ℕ), (1, 9) ∈ runs ∧
    (fstrimOp plainEnv (fun _ _ => none) ⟨0, 40960, 0⟩ freshVolume).2.dev =
      punch plainEnv runs freshVolume.dev := by
  have hok : (fstrimOp plainEnv (fun _ _ => none) ⟨0, 40960, 0⟩ freshVolume).1.1 = none := by decide
  obtain ⟨runs, -, hdev, -, hruns⟩ := fstrimOp_exact ⟨by decide, rfl⟩ (by decide) hok
  refine ⟨runs, (hruns _).mpr ⟨(1, 63), ⟨?_, ?_, ?_, ?_⟩, ?_⟩, hdev⟩ <;> decide

/-! ### The strings -/

/-- A file as its size and its bytes, which are zero past the size. -/
@[ext] structure Contents where
  size : ℕ
  bytes : ℕ → UInt8

def Contents.clear (c : Contents) (off size : ℕ) : ℕ → UInt8 :=
  fun pos => if off ≤ pos ∧ pos < off + size then 0 else c.bytes pos

def FileOp.effect (c : Contents) : FileOp → Contents
  | .write data off =>
    if data = [] then c else ⟨max c.size (off + data.length), copyInto c.bytes off data⟩
  | .truncate newSize => ⟨newSize, fun pos => if pos < newSize then c.bytes pos else 0⟩
  | .fallocate off size mode =>
    if mode &&& fallocPunchHole ≠ 0 then ⟨c.size, c.clear off size⟩
    else if mode &&& fallocCollapseRange ≠ 0 then
      ⟨c.size - size, fun pos => if pos < off then c.bytes pos else c.bytes (pos + size)⟩
    else if mode &&& fallocInsertRange ≠ 0 then
      ⟨c.size + size, fun pos => if pos < off then c.bytes pos
        else if pos < off + size then 0 else c.bytes (pos - size)⟩
    else ⟨sizeAfter mode c.size (off + size),
      if mode &&& fallocZeroRange ≠ 0 then c.clear off size else c.bytes⟩

def contentsOf (s : FS) (ino : ℕ) : Contents := ⟨(s.inodes ino).fileSize, content s (s.inodes ino)⟩

inductive VolumeOp
  | file (ino : ℕ) (op : FileOp)
  | trim (discard : ℕ → ℕ → Option Errno) (r : FsTrimRange)

/-- What an operation does to the file `ino`. -/
def VolumeOp.effect (ino : ℕ) (c : Contents) : VolumeOp → Contents
  | .file k op => if k = ino then op.effect c else c
  | .trim _ _ => c

/-- An operation on a file succeeds, or a trim ends in some way. -/
def VolumeOp.Steps (env : Env) (s : FS) (op : VolumeOp) (t : FS) : Prop :=
  match op with
  | .file ino op => File.Steps env s (ino, op) t
  | .trim discard r => (fstrimOp env discard r s).2 = t

def VolumeOp.Harmless (s : FS) : VolumeOp → Prop
  | .file ino op => File.Harmless s (ino, op)
  | .trim _ _ => True

/-- One operation on a file is its effect on the bytes. -/
theorem Steps.outcome {op : FileOp} (h : Steps env s (ino, op) t) (hsafe : Harmless s (ino, op))
    (hs : Sound env s) : Outcome env s ino (op.effect (contentsOf s ino)).size
      (op.effect (contentsOf s ino)).bytes t := by
  obtain ⟨hfile, hcall⟩ := h
  cases op with
  | write data off =>
    obtain ⟨n, u, hwrite, hcall⟩ := Call.bind_eq_ok hcall
    obtain ⟨-, rfl⟩ := Call.pure_eq_ok hcall
    by_cases hdata : data = []
    · rw [writeFileData, if_pos hdata] at hwrite
      obtain ⟨-, rfl⟩ := Call.pure_eq_ok hwrite
      rw [FileOp.effect, if_pos hdata]
      exact ⟨hs.ok, hfile, rfl, rfl, id, fun _ => id, fun k _ _ => ⟨.refl _, rfl⟩⟩
    · rw [FileOp.effect, if_neg hdata]
      exact (writeFileData_spec hs.ok hfile hdata hwrite).1
  | truncate newSize => exact (truncateInode_spec hs.ok hfile (hs.neat ino hfile) hcall).1
  | fallocate off size mode =>
    obtain ⟨i, u, hopened, hsize, hend, hcall⟩ := fallocateOp_eq_ok hs.ok hfile hcall
    unfold fallocateOpened at hcall
    rw [FileOp.effect]
    split_ifs at hcall ⊢ with hpunch hcollapse hinsert hzero
    · exact (punchHole_spec hopened hsize hcall).1
    · exact (collapseRangeOp_spec hopened hcall).2.2.2.1
    · exact (insertRangeOp_spec hopened
        (hsafe.2 ⟨not_not.mp hpunch, not_not.mp hcollapse, hinsert⟩) hcall).2.2.2.1
    · exact (zeroRangeOp_spec hopened hend hcall).1
    · refine (preallocateOpened_spec hopened (mt hopened.overlays_iff.mp ?_) hend hcall).1
      exact hsafe.1 ⟨not_not.mp hpunch, not_not.mp hcollapse, not_not.mp hinsert, not_not.mp hzero⟩

theorem VolumeOp.Steps.contents {op : VolumeOp} (h : VolumeOp.Steps env s op t)
    (hsafe : op.Harmless s) (hs : Sound env s) : Sound env t ∧ ∀ ino, isFile (t.inodes ino) →
      isFile (s.inodes ino) ∧ contentsOf t ino = op.effect ino (contentsOf s ino) := by
  cases op with
  | file ino op =>
    have hout := File.Steps.outcome h hsafe hs
    refine ⟨hout.sound hs h.1, fun k hk => ⟨hout.files k hk, ?_⟩⟩
    rw [VolumeOp.effect]
    split_ifs with hino
    · subst hino
      exact Contents.ext hout.size hout.bytes
    · obtain ⟨hsame, hbytes⟩ := hout.others k (Ne.symm hino) (hout.files k hk)
      exact Contents.ext hsame.fileSize hbytes
  | trim discard r =>
    obtain ⟨hsound, hinodes, hbytes⟩ := hs.trimmed h
    refine ⟨hsound, fun k hk => ?_⟩
    rw [contentsOf, hinodes] at *
    exact ⟨hk, Contents.ext rfl (hbytes k hk)⟩

theorem Fresh.contentsOf_eq (h : Fresh env s) (hfile : isFile (s.inodes ino)) :
    contentsOf s ino = ⟨0, zeroBlock⟩ := by
  obtain ⟨mode, now, heq⟩ := h.files ino hfile
  have hbacked := backed_newInode env s ino mode now
  rw [contentsOf, heq, hbacked.content_eq, byteAt_nil]
  rfl

variable {ops : List VolumeOp}

theorem run_contents (hfresh : Fresh env s)
    (hsafe : Always (VolumeOp.Steps env) (fun s op _ => op.Harmless s) s ops)
    (hrun : Run (VolumeOp.Steps env) s ops t) : Sound env t ∧ ∀ ino, isFile (t.inodes ino) →
      isFile (s.inodes ino) ∧
        contentsOf t ino = ops.foldl (VolumeOp.effect ino) ⟨0, zeroBlock⟩ := by
  induction hrun with
  | nil => exact ⟨hfresh.sound, fun ino hfile => ⟨hfile, hfresh.contentsOf_eq hfile⟩⟩
  | snoc hrun hstep ih =>
    obtain ⟨hbefore, hlast⟩ := always_snoc.mp hsafe
    obtain ⟨hsound, hfiles⟩ := ih hbefore
    obtain ⟨hsound', hfiles'⟩ := hstep.contents (hlast _ _ hrun hstep) hsound
    refine ⟨hsound', fun ino hfile => ?_⟩
    obtain ⟨hfile', hnow⟩ := hfiles' ino hfile
    rw [List.foldl_concat, hnow, (hfiles ino hfile').2]
    exact ⟨(hfiles ino hfile').1, rfl⟩

end Briefs.File
