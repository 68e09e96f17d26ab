import Briefs.Alloc.Exact
import Briefs.Lib.LastWriter
import Briefs.Replay.Invisible

/-!
# Replaying the bitmaps

A log of allocations and frees over a bitmap that holds some of them already. Both passes of the
replay go through all of the log; the last record about a block settles it, so the bitmaps end as
they were at the end of the log.
-/

namespace Briefs.Replay

open Lib Lib.Call Alloc Journal Trie Dir

/-- An allocation or a free of data blocks or of an inode. -/
def Allocates : Record → Prop
  | .extentAlloc .. | .extentFree .. | .inodeAlloc .. | .inodeFree _ => True
  | _ => False

/-- What a record says about the data block `i`: taken, free or nothing. -/
def dataMark (g : Geometry) (i : ℕ) : Record → Option Bool
  | .extentAlloc _ _ length physStart =>
    if ∃ j < length, g.rel (physStart + j) = i then some false else none
  | .extentFree _ physStart length =>
    if g.rel physStart ≤ i ∧ i < g.rel physStart + length then some true else none
  | _ => none

/-- What a record says about the bit `i` of the inode bitmap. -/
def inodeMark (i : ℕ) : Record → Option Bool
  | .inodeAlloc ino .. => if 0 < ino ∧ i = ino - 1 then some false else none
  | .inodeFree ino => if 0 < ino ∧ i = ino - 1 then some true else none
  | _ => none

/-- The pool `q` is what the records make of the pool `p`. -/
structure After (mark : ℕ → Record → Option Bool) (p : Pyramid) (rs : List Record)
    (q : Pyramid) : Prop where
  size : Pyramid.Alike p q
  whole : q.Whole
  bits : ∀ i < p.blockCount, q.isFree i = told (mark i) rs (p.isFree i)

namespace After

variable {mark : ℕ → Record → Option Bool} {p q r : Pyramid} {as bs rs : List Record}

theorem refl (h : p.Whole) : After mark p [] p := ⟨.refl p, h, fun _ _ => rfl⟩

theorem append (h : After mark p as q) (h' : After mark q bs r) : After mark p (as ++ bs) r where
  size := h.size.trans h'.size
  whole := h'.whole
  bits i hi := by
    rw [told_append, ← h.bits i hi]
    exact h'.bits i (h.size.blockCount.symm ▸ hi)

theorem again (h : After mark p as q) (hsub : as ⊆ rs) (h' : After mark q rs r) :
    After mark p rs r where
  size := h.size.trans h'.size
  whole := h'.whole
  bits i hi := by
    rw [h'.bits i (h.size.blockCount.symm ▸ hi), h.bits i hi, told_told hsub]

theorem unique (h : After mark p rs q) (h' : After mark p rs r) : q = r := by
  refine h.whole.ext h'.whole ⟨?_, ?_, ?_, ?_⟩ fun i => ?_
  · rw [h.size.l0, h'.size.l0]
  · rw [h.size.l1, h'.size.l1]
  · rw [h.size.l2, h'.size.l2]
  · rw [h.size.blockCount, h'.size.blockCount]
  · by_cases hi : i < p.blockCount
    · rw [h.bits i hi, h'.bits i hi]
    · have hq : ¬q.isFree i = true := fun hfree => hi (h.size.blockCount ▸ h.whole.inside i hfree)
      have hr : ¬r.isFree i = true := fun hfree => hi (h'.size.blockCount ▸ h'.whole.inside i hfree)
      rw [Bool.eq_false_iff.mpr hq, Bool.eq_false_iff.mpr hr]

end After

/-! ### What a record does to a pool -/

/-- The blocks of `S` are set to `free`, the others are left. -/
structure Sets (p q : Pyramid) (S : ℕ → Prop) [DecidablePred S] (free : Bool) : Prop where
  size : Pyramid.Alike p q
  whole : q.Whole
  bits : ∀ i < p.blockCount, q.isFree i = if S i then free else p.isFree i

section Pools

variable {a : Allocator} {p q r : Pyramid} {S T : ℕ → Prop} [DecidablePred S] [DecidablePred T]
  {free : Bool}

theorem Sets.after {mark : ℕ → Record → Option Bool} {rec : Record} (h : Sets p q S free)
    (hmark : ∀ i, mark i rec = if S i then some free else none) : After mark p [rec] q where
  size := h.size
  whole := h.whole
  bits i hi := by
    rw [h.bits i hi, told_cons, hmark]
    split_ifs <;> rfl

theorem Sets.trans (h : Sets p q S free) (h' : Sets q r T free) :
    Sets p r (fun i => S i ∨ T i) free where
  size := h.size.trans h'.size
  whole := h'.whole
  bits i hi := by
    rw [h'.bits i (h.size.blockCount.symm ▸ hi), h.bits i hi]
    split_ifs <;> tauto

theorem Sets.congr (h : Sets p q S free) (hST : ∀ i < p.blockCount, S i ↔ T i) :
    Sets p q T free where
  size := h.size
  whole := h.whole
  bits i hi := (h.bits i hi).trans (if_congr (hST i hi) rfl rfl)

theorem Sets.none (h : p.Whole) (hS : ∀ i < p.blockCount, ¬S i) : Sets p p S free :=
  ⟨.refl p, h, fun i hi => (if_neg (hS i hi)).symm⟩

theorem sets_reserveBlock (h : a.bitmap.Whole) (rel : ℕ) :
    Sets a.bitmap (a.reserveBlock rel).bitmap (· = rel) false := by
  have hwhole := Allocator.whole_reserveBlock h rel
  unfold Allocator.reserveBlock at hwhole ⊢
  rcases a.bitmap.markAllocated_cases rel with ⟨heq, hnone⟩ | ⟨q, heq, -, -, hsize, hbits⟩
  · rw [heq] at hwhole ⊢
    refine ⟨.refl _, hwhole, fun i hi => ?_⟩
    split_ifs with hrel
    · subst hrel
      exact hnone.resolve_left (Nat.not_le.mpr hi)
    · rfl
  · rw [heq] at hwhole ⊢
    refine ⟨hsize, hwhole, fun i _ => (hbits i).trans ?_⟩
    split_ifs with hrel
    · rw [decide_eq_false (not_not.mpr hrel), Bool.and_false]
    · rw [decide_eq_true hrel, Bool.and_true]

theorem sets_reserveBlocks (h : a.bitmap.Whole) (rel : ℕ → ℕ) (n : ℕ) :
    Sets a.bitmap ((List.range n).foldl (fun a i => a.reserveBlock (rel i)) a).bitmap
      (fun i => ∃ j < n, rel j = i) false := by
  induction n with
  | zero => exact .none h fun i _ ⟨j, hj, _⟩ => absurd hj (Nat.not_lt_zero j)
  | succ n ih =>
    rw [List.range_succ, List.foldl_append, List.foldl_cons, List.foldl_nil]
    refine (ih.trans (sets_reserveBlock ih.whole (rel n))).congr fun i _ => ⟨?_, ?_⟩
    · rintro (⟨j, hj, hrel⟩ | rfl)
      · exact ⟨j, by omega, hrel⟩
      · exact ⟨n, Nat.lt_succ_self n, rfl⟩
    · rintro ⟨j, hj, rfl⟩
      rcases Nat.lt_succ_iff_lt_or_eq.mp hj with hlt | rfl
      · exact .inl ⟨j, hlt, rfl⟩
      · exact .inr rfl

theorem sets_of_gained {added : ℕ → Prop} {n : ℕ} (h : Pyramid.Gained p q added n)
    (hq : q.Whole) (hS : ∀ i < p.blockCount, S i ↔ added i) : Sets p q S true where
  size := h.size
  whole := hq
  bits i hi := by
    rw [Bool.eq_iff_iff, h.free i, ← hS i hi]
    split_ifs with hin
    · simp [hin]
    · simp [hin]

theorem sets_freeBlock (h : a.bitmap.Whole) (rel : ℕ) :
    Sets a.bitmap (a.freeBlock rel).bitmap (· = rel) true := by
  have hbitmap : (a.freeBlock rel).bitmap = (a.bitmap.markFree rel).1 := by
    unfold Allocator.freeBlock
    rcases a.bitmap.markFree_cases rel with ⟨heq, -⟩ | ⟨q, heq, -⟩
    · rw [heq]
    · rw [heq]
      rfl
  rw [hbitmap]
  exact sets_of_gained (h.gained_markFree rel) (h.markFree rel) fun i hi => by omega

theorem sets_freeRun (h : a.bitmap.Whole) (first n : ℕ) :
    Sets a.bitmap (a.freeRun first n).bitmap (fun i => first ≤ i ∧ i < first + n) true := by
  obtain ⟨k, hgained⟩ := Allocator.gained_freeRun h first n
  exact sets_of_gained hgained (Allocator.whole_freeRun h first n) fun i hi => by omega

end Pools

def dataStep (g : Geometry) (a : Allocator) : Record → Allocator
  | .extentAlloc _ _ length physStart =>
    (List.range length).foldl (fun a i => a.reserveBlock (g.rel (physStart + i))) a
  | .extentFree _ physStart length => a.freeRun (g.rel physStart) length
  | _ => a

def inodeStep (a : Allocator) : Record → Allocator
  | .inodeAlloc ino .. => if 0 < ino then a.reserveBlock (ino - 1) else a
  | .inodeFree ino => if 0 < ino then a.freeBlock (ino - 1) else a
  | _ => a

theorem after_dataStep (g : Geometry) {a : Allocator} (h : a.bitmap.Whole) (rec : Record) :
    After (dataMark g) a.bitmap [rec] (dataStep g a rec).bitmap := by
  cases rec with
  | extentAlloc ino offset length physStart =>
    exact (sets_reserveBlocks h (fun i => g.rel (physStart + i)) length).after fun i => rfl
  | extentFree ino physStart length =>
    exact (sets_freeRun h (g.rel physStart) length).after fun i => rfl
  | _ => exact ⟨.refl _, h, fun _ _ => rfl⟩

theorem after_inodeStep {a : Allocator} (h : a.bitmap.Whole) (rec : Record) :
    After inodeMark a.bitmap [rec] (inodeStep a rec).bitmap := by
  have hskip : ∀ {ino : ℕ} {free : Bool}, ¬0 < ino →
      Sets a.bitmap a.bitmap (fun i => 0 < ino ∧ i = ino - 1) free := by
    intro ino free hino
    exact .none h fun i _ hin => hino hin.1
  cases rec with
  | inodeAlloc ino mode nlink uid gid =>
    refine Sets.after (?_ : Sets a.bitmap (if 0 < ino then a.reserveBlock (ino - 1) else a).bitmap
      (fun i => 0 < ino ∧ i = ino - 1) false) fun i => rfl
    split_ifs with hino
    · exact (sets_reserveBlock h (ino - 1)).congr fun i _ => by simp [hino]
    · exact hskip hino
  | inodeFree ino =>
    refine Sets.after (?_ : Sets a.bitmap (if 0 < ino then a.freeBlock (ino - 1) else a).bitmap
      (fun i => 0 < ino ∧ i = ino - 1) true) fun i => rfl
    split_ifs with hino
    · exact (sets_freeBlock h (ino - 1)).congr fun i _ => by simp [hino]
    · exact hskip hino
  | _ => exact ⟨.refl _, h, fun _ _ => rfl⟩

/-- A whole log over a pool. -/
theorem after_foldl {mark : ℕ → Record → Option Bool} {step : Allocator → Record → Allocator}
    (hstep : ∀ a rec, a.bitmap.Whole → After mark a.bitmap [rec] (step a rec).bitmap)
    (rs : List Record) {a : Allocator} (h : a.bitmap.Whole) :
    After mark a.bitmap rs (rs.foldl step a).bitmap := by
  induction rs generalizing a with
  | nil => exact .refl h
  | cons rec rs ih => exact (hstep a rec h).append (ih (hstep a rec h).whole)

/-! ### The passes -/

section Passes

variable (env : Env)

def Session.withAllocs (s : Session) (data inode : Allocator) : Session :=
  { s with fs := { s.fs with store := { s.fs.store with dataAlloc := data }, inodeAlloc := inode } }

def Session.replayed (g : Geometry) (s : Session) (rs : List Record) : Session :=
  s.withAllocs (rs.foldl (dataStep g) s.fs.store.dataAlloc) (rs.foldl inodeStep s.fs.inodeAlloc)

variable {env}

theorem replayed_append (g : Geometry) (s : Session) (as bs : List Record) :
    (s.replayed g as).replayed g bs = s.replayed g (as ++ bs) := by
  unfold Session.replayed
  rw [List.foldl_append, List.foldl_append]
  rfl

theorem applyRecord_of_allocates (reserveOnly : Bool) {rec : Record} (h : Allocates rec)
    (s : Session) :
    applyRecord env reserveOnly rec s = (.ok (), s.replayed env.geometry [rec]) := by
  cases rec with
  | extentAlloc ino offset length physStart => rfl
  | extentFree ino physStart length => rfl
  | inodeAlloc ino mode nlink uid gid =>
    change when (0 < ino) (updateInodeAlloc (·.reserveBlock (ino - 1))) s = (.ok (),
      s.withAllocs s.fs.store.dataAlloc (if 0 < ino then s.fs.inodeAlloc.reserveBlock (ino - 1)
        else s.fs.inodeAlloc))
    unfold when
    split_ifs <;> rfl
  | inodeFree ino =>
    change when (0 < ino) (updateInodeAlloc (·.freeBlock (ino - 1))) s = (.ok (),
      s.withAllocs s.fs.store.dataAlloc (if 0 < ino then s.fs.inodeAlloc.freeBlock (ino - 1)
        else s.fs.inodeAlloc))
    unfold when
    split_ifs <;> rfl
  | _ => exact h.elim

theorem applyRecords_of_allocates (reserveOnly : Bool) {rs : List Record}
    (h : ∀ rec ∈ rs, Allocates rec) (s : Session) :
    applyRecords env reserveOnly rs s = (.ok (), s.replayed env.geometry rs) := by
  induction rs generalizing s with
  | nil => rfl
  | cons rec rs ih =>
    obtain ⟨hrec, hrs⟩ := List.forall_mem_cons.mp h
    have hattempt : attempt (applyRecord env reserveOnly rec) s =
        (.ok (.ok ()), s.replayed env.geometry [rec]) := by
      unfold attempt
      rw [applyRecord_of_allocates reserveOnly hrec]
    rw [applyRecords, bind_of_ok hattempt]
    exact ih hrs _

/-- The records that a walk applies: those of the checkpoint block are skipped. -/
def replayRecords (g : Geometry) (blocks : List (ℕ × RingBlock)) : List Record :=
  blocks.flatMap fun block =>
    match block.2 with
    | .foreign => []
    | .records rs => if block.1 = g.journalEnd - 1 then [] else rs

/-- Journal blocks whose records only allocate and free. -/
def Plain (g : Geometry) (blocks : List (ℕ × RingBlock)) : Prop :=
  ∀ block ∈ blocks, ∃ rs, block.2 = .records rs ∧
    (block.1 ≠ g.journalEnd - 1 → ∀ rec ∈ rs, Allocates rec)

/-- Ring blocks are where the ring is. -/
def Inside (g : Geometry) (blocks : List (ℕ × RingBlock)) : Prop :=
  ∀ block ∈ blocks, g.journalStart ≤ block.1 ∧ block.1 < g.journalEnd

theorem inside_visited {g : Geometry} {logEnd iter cur pos : ℕ} (hlow : g.journalStart ≤ cur)
    (hhigh : cur < g.journalEnd) (hpos : pos ∈ visited g logEnd iter cur) :
    g.journalStart ≤ pos ∧ pos < g.journalEnd := by
  induction iter generalizing cur with
  | zero => simp [visited] at hpos
  | succ iter ih =>
    rcases List.mem_cons.mp hpos with rfl | hpos
    · exact ⟨hlow, hhigh⟩
    · split_ifs at hpos with hend
      · simp at hpos
      · unfold nextRingBlock at hpos
        split_ifs at hpos with hwrap
        · exact ih le_rfl (by omega) hpos
        · exact ih (by omega) (by omega) hpos

theorem inside_window {g : Geometry} {d : Disk} (hlow : g.journalStart ≤ d.logStart)
    (hhigh : d.logStart < g.journalEnd) : Inside g (window g d) := by
  intro block hblock
  obtain ⟨pos, hpos, rfl⟩ := List.mem_map.mp hblock
  exact inside_visited hlow hhigh hpos

theorem walkJournal_of_plain (reserveOnly : Bool) {blocks : List (ℕ × RingBlock)}
    (hinside : Inside env.geometry blocks) (h : Plain env.geometry blocks) (s : Session) :
    walkJournal env reserveOnly blocks s =
      (.ok (), s.replayed env.geometry (replayRecords env.geometry blocks)) := by
  induction blocks generalizing s with
  | nil => rfl
  | cons block blocks ih =>
    obtain ⟨cur, content⟩ := block
    obtain ⟨⟨hlow, hhigh⟩, hin⟩ := List.forall_mem_cons.mp hinside
    obtain ⟨⟨rs, hrs, hallocates⟩, hrest⟩ := List.forall_mem_cons.mp h
    subst hrs
    have hfirst : when (cur ≠ env.geometry.journalEnd - 1) (applyRecords env reserveOnly rs) s =
        (.ok (), s.replayed env.geometry (if cur = env.geometry.journalEnd - 1 then [] else rs)) := by
      unfold when
      by_cases hcheckpoint : cur = env.geometry.journalEnd - 1
      · rw [if_neg (not_not.mpr hcheckpoint), if_pos hcheckpoint]
        rfl
      · rw [if_pos hcheckpoint, if_neg hcheckpoint]
        exact applyRecords_of_allocates reserveOnly (hallocates hcheckpoint) s
    rw [walkJournal, if_neg (by omega)]
    rw [bind_of_ok hfirst, ih hin hrest, replayed_append]
    rfl

/-- The two passes over the log, up to the flush. -/
def twoPasses (env : Env) (blocks : List (ℕ × RingBlock)) : Call Session Unit := do
  context "briefs: replay pass 1 (reserve)" (walkJournal env true blocks)
  update buildXattrLiveSet
  context "briefs: replay pass 2 (apply)" (walkJournal env false blocks)

theorem twoPasses_of_plain {blocks : List (ℕ × RingBlock)} (hinside : Inside env.geometry blocks)
    (h : Plain env.geometry blocks) (s : Session) : ∃ t, twoPasses env blocks s = (.ok (), t) ∧
      t.fs.store.dataAlloc = (replayRecords env.geometry blocks).foldl (dataStep env.geometry)
        ((replayRecords env.geometry blocks).foldl (dataStep env.geometry) s.fs.store.dataAlloc) ∧
      t.fs.inodeAlloc = (replayRecords env.geometry blocks).foldl inodeStep
        ((replayRecords env.geometry blocks).foldl inodeStep s.fs.inodeAlloc) := by
  have hpass : ∀ (msg : String) (reserveOnly : Bool) (s : Session),
      context msg (walkJournal env reserveOnly blocks) s =
        (.ok (), s.replayed env.geometry (replayRecords env.geometry blocks)) := by
    intro msg reserveOnly s
    unfold context
    rw [walkJournal_of_plain reserveOnly hinside h]
  unfold twoPasses
  rw [bind_of_ok (hpass _ true s), bind_of_ok (rfl : update buildXattrLiveSet _ = _), hpass]
  exact ⟨_, rfl, rfl, rfl⟩

end Passes

/-- The bitmaps after the two passes of the replay; a clean journal is not replayed. -/
def replayBitmaps (env : Env) (d : Disk) : Except Err (Pyramid × Pyramid) :=
  if d.logStart = d.logEnd then .ok (d.dataPool, d.inodePool)
  else
    match twoPasses env (window env.geometry d) (startSession (opened env.geometry d)) with
    | (.ok _, r) => .ok (r.fs.store.dataAlloc.bitmap, r.fs.inodeAlloc.bitmap)
    | (.error e, _) => .error e

def committed (g : Geometry) (d : Disk) : List Record :=
  if d.logStart = d.logEnd then [] else replayRecords g (window g d)

variable {env : Env}

theorem replayBitmaps_once {d : Disk} (hlow : env.geometry.journalStart ≤ d.logStart)
    (hhigh : d.logStart < env.geometry.journalEnd) (h : Plain env.geometry (window env.geometry d))
    {dataStart inodeStart dataEnd inodeEnd : Pyramid} {k l : ℕ}
    (hdata : After (dataMark env.geometry) dataStart ((committed env.geometry d).take k) d.dataPool)
    (hinode : After inodeMark inodeStart ((committed env.geometry d).take l) d.inodePool)
    (hdataEnd : After (dataMark env.geometry) dataStart (committed env.geometry d) dataEnd)
    (hinodeEnd : After inodeMark inodeStart (committed env.geometry d) inodeEnd) :
    replayBitmaps env d = .ok (dataEnd, inodeEnd) := by
  unfold replayBitmaps
  unfold committed at hdata hinode hdataEnd hinodeEnd
  by_cases hclean : d.logStart = d.logEnd
  · simp only [if_pos hclean, List.take_nil] at hdata hinode hdataEnd hinodeEnd
    rw [if_pos hclean, hdata.unique hdataEnd, hinode.unique hinodeEnd]
  rw [if_neg hclean] at hdata hinode hdataEnd hinodeEnd
  rw [if_neg hclean]
  obtain ⟨t, heq, hdata', hinode'⟩ :=
    twoPasses_of_plain (inside_window hlow hhigh) h (startSession (opened env.geometry d))
  rw [heq]
  dsimp only
  rw [hdata', hinode']
  -- each pass settles every block, wherever the bitmap was before
  have hpass₁ := after_foldl (fun a rec ha => after_dataStep env.geometry ha rec)
    (replayRecords env.geometry (window env.geometry d)) (a := .ofPool d.dataPool) hdata.whole
  have hpass₂ := after_foldl (fun a rec ha => after_dataStep env.geometry ha rec)
    (replayRecords env.geometry (window env.geometry d)) hpass₁.whole
  have hinode₁ := after_foldl (fun a rec ha => after_inodeStep ha rec)
    (replayRecords env.geometry (window env.geometry d)) (a := .ofPool d.inodePool) hinode.whole
  have hinode₂ := after_foldl (fun a rec ha => after_inodeStep ha rec)
    (replayRecords env.geometry (window env.geometry d)) hinode₁.whole
  have hdataAll := (hdata.again (List.take_subset _ _) hpass₁).again (List.Subset.refl _) hpass₂
  have hinodeAll := (hinode.again (List.take_subset _ _) hinode₁).again (List.Subset.refl _) hinode₂
  rw [hdataEnd.unique hdataAll, hinodeEnd.unique hinodeAll]
  rfl

/-- Replaying the bitmaps. The log holds only allocations and frees, and the bitmaps on the device
are those at some points of the log. Then the bitmaps after the two passes are those at its end,
and a replay over them leaves them. -/
theorem replayBitmaps_eq (d : Disk) (hlow : env.geometry.journalStart ≤ d.logStart)
    (hhigh : d.logStart < env.geometry.journalEnd) (h : Plain env.geometry (window env.geometry d))
    (dataStart inodeStart dataEnd inodeEnd : Pyramid) (k l : ℕ)
    (hdata : After (dataMark env.geometry) dataStart ((committed env.geometry d).take k) d.dataPool)
    (hinode : After inodeMark inodeStart ((committed env.geometry d).take l) d.inodePool)
    (hdataEnd : After (dataMark env.geometry) dataStart (committed env.geometry d) dataEnd)
    (hinodeEnd : After inodeMark inodeStart (committed env.geometry d) inodeEnd) :
    replayBitmaps env d = .ok (dataEnd, inodeEnd) ∧
      replayBitmaps env { d with dataPool := dataEnd, inodePool := inodeEnd } =
        .ok (dataEnd, inodeEnd) := by
  refine ⟨replayBitmaps_once hlow hhigh h hdata hinode hdataEnd hinodeEnd, ?_⟩
  refine replayBitmaps_once (d := { d with dataPool := dataEnd, inodePool := inodeEnd })
    (k := (committed env.geometry d).length) (l := (committed env.geometry d).length) hlow
    hhigh h ?_ ?_ hdataEnd hinodeEnd
  · exact (List.take_length (l := committed env.geometry d)).symm ▸ hdataEnd
  · exact (List.take_length (l := committed env.geometry d)).symm ▸ hinodeEnd

def comeAndGo : List Record :=
  [.extentAlloc 2 0 3 101, .inodeAlloc 3 0 1 0 0, .extentFree 2 102 1, .inodeFree 3]

/-- The first allocation of the log is in the data bitmap already. -/
def halfReplayed : Disk :=
  { smallVolume 0 (.raw []) (fun _ => .zero) 0 with
    dataPool := (dataStep smallEnv.geometry (.ofPool (.newDataAllocBuilder 100))
      (.extentAlloc 2 0 3 101)).bitmap
    inodePool := .newAllocBuilder 100
    ring := fun _ => .records comeAndGo
    logEnd := 201 }

theorem replayBitmaps_eq_halfReplayed :
    (committed smallEnv.geometry halfReplayed = comeAndGo ∧
        Plain smallEnv.geometry (window smallEnv.geometry halfReplayed)) ∧
      ∃ dataEnd inodeEnd,
        After (dataMark smallEnv.geometry) (.newDataAllocBuilder 100) comeAndGo dataEnd ∧
        After inodeMark (.newAllocBuilder 100) comeAndGo inodeEnd ∧
        replayBitmaps smallEnv halfReplayed = .ok (dataEnd, inodeEnd) := by
  have hlog : committed smallEnv.geometry halfReplayed = comeAndGo := rfl
  have hplain : Plain smallEnv.geometry (window smallEnv.geometry halfReplayed) := by
    intro block hblock
    obtain ⟨pos, hpos, rfl⟩ := List.mem_map.mp hblock
    refine ⟨comeAndGo, rfl, fun _ rec hrec => ?_⟩
    rcases hrec with _ | ⟨_, _ | ⟨_, _ | ⟨_, _ | ⟨_, hnone⟩⟩⟩⟩
    · trivial
    · trivial
    · trivial
    · trivial
    · cases hnone
  have hdata0 : (Pyramid.newDataAllocBuilder 100).Whole :=
    Pyramid.whole_newDataAllocBuilder (by norm_num) (by norm_num)
  have hinode0 : (Pyramid.newAllocBuilder 100).Whole :=
    Pyramid.whole_newAllocBuilder (by norm_num) (by norm_num)
  have hdata := after_foldl (fun a rec ha => after_dataStep smallEnv.geometry ha rec) comeAndGo
    (a := .ofPool (.newDataAllocBuilder 100)) hdata0
  have hinode := after_foldl (fun a rec ha => after_inodeStep ha rec) comeAndGo
    (a := .ofPool (.newAllocBuilder 100)) hinode0
  refine ⟨⟨hlog, hplain⟩, _, _, hdata, hinode, ?_⟩
  exact (replayBitmaps_eq halfReplayed (by decide) (by decide) hplain (.newDataAllocBuilder 100)
    (.newAllocBuilder 100) _ _ 1 0
    (after_dataStep smallEnv.geometry (a := .ofPool (.newDataAllocBuilder 100)) hdata0 _)
    (.refl hinode0) hdata hinode).1

end Briefs.Replay
