import Briefs.Replay.Reconcile

/-!
# Operations that were not committed

A crash between two commit points loses the operations since the first one. What
such operations do write to the device are records behind the live window and the
slots of fresh inodes; a slot matters to the next mount only if its number was in
use at the commit, because `FreeInode` gives a number back at once.
-/

namespace Briefs.Replay

open Lib Lib.Call Alloc Journal Trie Dir

section Window

variable {g : Geometry} {r : Ring}

/-- A walk of the ring that starts in the live window stays in it. -/
theorem live_of_visited (hb : r.Bounded) (hstart : r.start = g.journalStart)
    (hstop : r.stop = g.journalEnd) {iter cur : ℕ} (hlo : r.start ≤ cur) (hhi : cur < r.stop)
    (hlive : r.Live cur) {pos : ℕ} (hpos : pos ∈ visited g r.logEnd iter cur) : r.Live pos := by
  induction iter generalizing cur with
  | zero => simp [visited] at hpos
  | succ iter ih =>
    simp only [visited, List.mem_cons] at hpos
    rcases hpos with rfl | hpos
    · exact hlive
    · split_ifs at hpos with hend
      · simp at hpos
      · have h₃ := hb.stopLo
        have h₄ := hb.stopHi
        unfold nextRingBlock at hpos hend
        rw [← hstart, ← hstop] at hpos hend
        unfold Ring.Live Ring.dist at hlive
        split_ifs at hpos hend with hwrap
        · refine ih le_rfl (by omega) ?_ hpos
          unfold Ring.Live Ring.dist
          split_ifs at hlive ⊢ <;> omega
        · refine ih (by omega) (by omega) ?_ hpos
          unfold Ring.Live Ring.dist
          split_ifs at hlive ⊢ <;> omega

end Window

/-- Right after a commit point: nothing has been written behind the log yet. -/
structure AtCommit (g : Geometry) (s : BrieFS) : Prop where
  start : s.store.tape.ring.start = g.journalStart
  stop : s.store.tape.ring.stop = g.journalEnd
  bounded : s.store.tape.ring.Bounded
  usable : s.store.tape.ring.Usable
  writePos : s.store.tape.ring.writePos = s.store.tape.ring.logEnd

variable {env : Env} {K : ℕ → Prop} {s t : BrieFS}

theorem AtCommit.untouched (h : AtCommit env.geometry s) : Untouched env K s s where
  blocks := rfl
  dataPool := rfl
  inodePool := rfl
  ring := rfl
  table := rfl
  tape := .refl h.usable h.writePos

theorem overlay_congr {ring : ℕ → RingBlock} {writes writes' : List (ℕ × List Record)} {pos : ℕ}
    (h : writes.lookup pos = writes'.lookup pos) :
    overlay ring writes pos = overlay ring writes' pos := by
  unfold overlay
  rw [h]

/-- The next mount walks the same blocks of the log. -/
theorem window_crash (hs : AtCommit env.geometry s) (h : Untouched env K s t)
    (hne : s.store.tape.ring.logStart ≠ s.store.tape.ring.logEnd) :
    window env.geometry (crash t) = window env.geometry (crash s) := by
  have hb := hs.bounded
  have hlive : s.store.tape.ring.Live s.store.tape.ring.logStart := by
    have h₂ := hb.startHi
    have h₃ := hb.stopLo
    unfold Ring.Live Ring.dist
    split_ifs <;> omega
  have hstart : (crash t).logStart = (crash s).logStart := h.tape.logStart
  have hend : (crash t).logEnd = (crash s).logEnd := h.tape.logEnd
  unfold window
  rw [hstart, hend]
  refine List.map_congr_left fun pos hpos => ?_
  have hpos' := live_of_visited hb hs.start hs.stop hb.startLo (by have := hb.startHi; omega) hlive hpos
  change (pos, overlay t.ring t.store.tape.writes pos) = (pos, overlay s.ring s.store.tape.writes pos)
  rw [h.ring, overlay_congr (h.tape.writes pos hpos')]

theorem rested_opened (h : Untouched env K s t) :
    Rested env K s.inodePool (opened env.geometry (crash s)) (opened env.geometry (crash t)) := by
  have hstill : ∀ d : ℕ → Option TableBlock, (layered d).Still := fun d => ⟨fun _ => rfl, fun _ => rfl⟩
  have hdevice : mask env.geometry K s.table.device = mask env.geometry K t.table.device :=
    h.table.symm
  refine ⟨⟨?_, ?_, h.inodePool.symm, (hstill _).calm, (hstill _).calm, hdevice, ?_⟩, hstill _,
    hstill _, rfl⟩
  · simp only [opened, crash, h.blocks, h.dataPool, h.tape.logStart, h.tape.logEnd]
  · simp only [opened, crash, h.inodePool]
  · change mask _ _ (layered _).view = mask _ _ (layered _).view
    rw [(hstill _).view_eq, (hstill _).view_eq]
    exact hdevice

theorem sameReplay_start {a b : BrieFS} (h : Agree env K a b) :
    SameReplay env K (startSession a) (startSession b) where
  fs := { h with store := by simp only [startSession, h.store] }
  xattrFinal := rfl
  xattrNext := rfl
  xattrLive := rfl
  trieSeeded := rfl
  replayParents := rfl
  pristine := fun _ _ => rfl

/-- The mounts of two devices that differ in the slots of `K`. -/
theorem mount_agree (hs : AtCommit env.geometry s) (h : Untouched env K s t) {a : BrieFS}
    (hspares : ∀ rec ∈ recordsOf (window env.geometry (crash s)), Spares K rec)
    (hok : mount env (crash s) = .ok a)
    (hfree : ∀ n, K n → a.inodeAlloc.allocated (n - 1) = false) :
    ∃ b bits, mount env (crash t) = .ok b ∧ Rested env K bits a b := by
  have hopened := rested_opened h
  have hstart : (crash t).logStart = (crash s).logStart := h.tape.logStart
  have hend : (crash t).logEnd = (crash s).logEnd := h.tape.logEnd
  unfold mount replayJournal at hok ⊢
  simp only [hstart, hend] at hok ⊢
  split_ifs at hok ⊢ with hsize hclean
  · cases hok
    exact ⟨_, _, rfl, hopened⟩
  · rw [window_crash hs h hclean]
    rcases hrun : replayPasses env (window env.geometry (crash s))
      (startSession (opened env.geometry (crash s))) with ⟨_ | _, u⟩
    · rw [hrun] at hok
      cases hok
    · rw [hrun] at hok
      cases hok
      obtain ⟨u', bits, hrun', hu⟩ :=
        replayPasses_agree (sameReplay_start hopened.toAgree) hspares hrun hfree
      rw [hrun']
      exact ⟨_, bits, rfl, hu⟩

theorem Rested.lookup {bits : Pyramid} {a b : BrieFS} (h : Rested env K bits a b) {ino : ℕ}
    (hino : ¬ K ino) (name : Bytes) : lookup env b ino name = lookup env a ino name := by
  unfold Replay.lookup
  rw [h.readInode hino, h.store]

/-- A path that never comes to an inode of `K` leads to the same place. -/
theorem Rested.resolveFrom {bits : Pyramid} {a b : BrieFS} (h : Rested env K bits a b)
    {entry : ℕ × ℕ} (path : List Bytes)
    (hpath : ∀ path found, resolveFrom env a entry path = some found → ¬ K found.1) :
    resolveFrom env b entry path = resolveFrom env a entry path := by
  induction path generalizing entry with
  | nil => rfl
  | cons name rest ih =>
    have hlookup := h.lookup (hpath [] entry rfl) name
    unfold Replay.resolveFrom
    rw [hlookup]
    cases hfound : Replay.lookup env a entry.1 name with
    | none => rfl
    | some next =>
      refine ih fun path found hto => hpath (name :: path) found ?_
      simpa only [Replay.resolveFrom, hfound] using hto

/-- What an inode is: its type, its generation and its extents. -/
def fileOf (inode : Except Err Inode) : Option (ℕ × ℕ × ℕ × ℕ × ℕ × Region) :=
  match inode with
  | .ok i => some (i.filemode &&& modeTypeMask, i.generation, i.numExtentsTotal, i.numExtentsInline,
      i.extentInlineBase, i.region)
  | .error _ => none

/-- The tree of `a` is the tree of `b`, with the same inodes in it. -/
structure Intact (env : Env) (a b : BrieFS) : Prop where
  tree : ∀ path, resolve env b path = resolve env a path
  files : ∀ path entry, resolve env a path = some entry →
    fileOf (b.readInode env entry.1) = fileOf (a.readInode env entry.1)
  /-- The blocks of the data region, extent index nodes among them. -/
  blocks : ∀ block, b.store.blocks.device block = a.store.blocks.device block

/-- A crash in `t` is recovered to what a crash in `s` is recovered to. -/
def RecoversTo (env : Env) (s t : BrieFS) : Prop :=
  ∀ a, mount env (crash s) = .ok a → ∃ b, mount env (crash t) = .ok b ∧ Intact env a b

/-- A run of directory operations from `s`, cut anywhere, that commits nothing. -/
structure Uncommitted (env : Env) (s : BrieFS) (ops : List Op) (cmds : List Dir.Cmd) (t : BrieFS) :
    Prop where
  cut : cmds <+: Program.traceAll (BrieFS.exec env) (ops.map (Op.program env.geometry)) s
  run : Run (Program.Steps (BrieFS.exec env)) s cmds t
  quiet : Always (Program.Steps (BrieFS.exec env))
    (fun u _ v => v.store.tape.commits = u.store.tape.commits) s cmds

/-- An inode number that is free at the commit in `s`: in the recovered inode bitmap, in
the recovered tree, and for the records of the log that change a directory or a symlink. -/
structure FreeAtCommit (env : Env) (s : BrieFS) (n : ℕ) : Prop where
  bitmap : ∀ a, mount env (crash s) = .ok a → a.inodeAlloc.allocated (n - 1) = false
  tree : ∀ a, mount env (crash s) = .ok a →
    ∀ path entry, resolve env a path = some entry → entry.1 ≠ n
  log : ∀ rec ∈ recordsOf (window env.geometry (crash s)), Spares (· = n) rec

/-- A step that writes no slot of an inode number in use at the commit. -/
def WritesFresh (env : Env) (s : BrieFS) (c : Dir.Cmd) : Prop :=
  ∀ inode, c = .writeThroughFreshInodeSlot inode → FreeAtCommit env s inode.inodeNumber

theorem spares_of_free {rec : Record} (h : ∀ n, K n → Spares (· = n) rec) : Spares K rec := by
  cases rec with
  | dirUpdate rec => exact fun hK => h _ hK rfl
  | symlinkData ino => exact fun hK => h _ hK rfl
  | _ => trivial

theorem Uncommitted.untouched {ops : List Op} {cmds : List Dir.Cmd}
    (hs : AtCommit env.geometry s) (h : Uncommitted env s ops cmds t)
    (hfresh : Always (Program.Steps (BrieFS.exec env)) (fun _ c _ => WritesFresh env s c) s cmds) :
    Untouched env (FreeAtCommit env s) s t := by
  refine h.run.invariant (G := fun u c v => v.store.tape.commits = u.store.tape.commits ∧
    WritesFresh env s c) ?_ hs.untouched ?_
  · exact fun before c after u v hsplit hrun hstep =>
      ⟨h.quiet before c after u v hsplit hrun hstep, hfresh before c after u v hsplit hrun hstep⟩
  · rintro u c v hu hstep ⟨hquiet, hwrites⟩
    cases hstep
    exact hu.step hs.bounded c hquiet hwrites

theorem mount_clean {env : Env} {d : Disk} (hclean : d.logStart = d.logEnd)
    (hmin : journalMinBlocks ≤ env.geometry.journalEnd - env.geometry.journalStart)
    (hmax : env.geometry.journalEnd - env.geometry.journalStart ≤ journalMaxBlocks) :
    mount env d = .ok (opened env.geometry d) := by
  unfold mount replayJournal
  simp only [if_pos hclean]
  exact if_neg (by omega)

section SmallVolume

/-- Eight data blocks from 100 on, eight inodes, and a journal of eight blocks. -/
def smallEnv : Env where
  geometry :=
    { dataRegionStart := 100
      rootIno := 1
      inodesPerBlock := 8
      journalStart := 200
      journalEnd := 208 }
  clock := fun n => ⟨1000 + n, 0⟩
  rand := fun n => 7000 + n
  walkIndex := fun _ _ => .ok ⟨[], []⟩
  aclMode := fun _ _ _ => none

def smallRoot (trie : Ref) : Inode :=
  { Inode.newInode 1 (modeDir + 0o755) ⟨1, 0⟩ with nlinks := 2, dirTrieRoot := trie, generation := 11 }

/-- A volume whose root directory has the given trie, and the inodes `slots` besides it. -/
def smallVolume (trie : Ref) (page : Content) (slots : ℕ → Inode) (inodes : Word) : Disk where
  blocks := fun block => if block = 101 then page else .raw []
  table := fun block => if block = 0 then
    some fun i => if i = 0 then smallRoot trie else slots i else some fun _ => .zero
  dataPool := { l0 := [1], l1 := [1], l2 := [0xFC], blockCount := 8, freeCount := 6 }
  inodePool := { l0 := [1], l1 := [1], l2 := [inodes], blockCount := 8, freeCount := 6 }
  ring := fun _ => .foreign
  logStart := 200
  logEnd := 200

/-- The trie of a directory with the one file `a`, inode 2. -/
def pageOfA : TriePage :=
  { ((TriePage.init 0 0 nodeTypeInterm).putSlot 0
      { nodeType := 4, firstChild := makeRef 101 1, childCount := 1 }).putSlot 1
      { byteVal := 97, inode := 2, ftype := 8, nameLen := 3, nameOffset := 3 } |>.putHeap 3 [1, 0, 97]
    with liveCount := 2, freeSlots := ~~~3, freeNameOff := 3 }

def volumeWithA : BrieFS :=
  opened smallEnv.geometry (smallVolume (makeRef 101 0) (.page pageOfA)
    (fun i => if i = 1 then { Inode.newInode 2 (modeFile + 0o644) ⟨1, 0⟩ with generation := 22 }
      else .zero) 0xFC)

def createB : Op :=
  .create
    { parentIno := 1
      name := [98]
      mode := modeFile + 0o644
      uid := 0
      gid := 0
      excl := true
      rdev := 0
      symlinkTarget := []
      umask := 0 }

def smallTrace (s : BrieFS) (ops : List Op) : List Dir.Cmd :=
  Program.traceAll (BrieFS.exec smallEnv) (ops.map (Op.program smallEnv.geometry)) s

def smallRun (s : BrieFS) (ops : List Op) : BrieFS :=
  Program.runAll (BrieFS.exec smallEnv) (ops.map (Op.program smallEnv.geometry)) s

theorem atCommit_smallVolume {trie : Ref} {page : Content} {slots : ℕ → Inode} {inodes : Word} :
    AtCommit smallEnv.geometry (opened smallEnv.geometry (smallVolume trie page slots inodes)) where
  start := rfl
  stop := rfl
  bounded := by constructor <;> simp [opened, openTape, smallVolume, smallEnv]
  usable := by constructor <;> simp [opened, openTape, smallVolume, smallEnv]
  writePos := rfl

theorem uncommitted_of_checks {s : BrieFS} {ops : List Op}
    (h : Program.checks (BrieFS.exec smallEnv)
      (fun u _ v => v.store.tape.commits == u.store.tape.commits) s (smallTrace s ops)) :
    Uncommitted smallEnv s ops (smallTrace s ops) (smallRun s ops) where
  cut := List.prefix_refl _
  run := Program.run_traceAll _ _
  quiet := by simpa using Program.always_of_checks h

def emptyVolume : BrieFS :=
  opened smallEnv.geometry (smallVolume 0 (.raw []) (fun _ => .zero) 0xFE)

theorem resolve_emptyVolume (path : List Bytes) (entry : ℕ × ℕ)
    (h : resolve smallEnv (opened smallEnv.geometry (crash emptyVolume)) path = some entry) :
    entry.1 = 1 := by
  cases path with
  | nil =>
    cases h
    rfl
  | cons name rest =>
    have hlookup : lookup smallEnv (opened smallEnv.geometry (crash emptyVolume)) 1 name = none := rfl
    unfold resolve resolveFrom at h
    rw [show smallEnv.geometry.rootIno = 1 from rfl, hlookup] at h
    cases h

theorem freeAtCommit_two : FreeAtCommit smallEnv emptyVolume 2 := by
  have hmount : mount smallEnv (crash emptyVolume) =
      .ok (opened smallEnv.geometry (crash emptyVolume)) :=
    mount_clean rfl (by decide) (by decide)
  constructor
  · intro a ha
    obtain rfl := Except.ok.inj (hmount.symm.trans ha)
    decide
  · intro a ha path entry hentry
    obtain rfl := Except.ok.inj (hmount.symm.trans ha)
    rw [resolve_emptyVolume path entry hentry]
    decide
  · have hlog : recordsOf (window smallEnv.geometry (crash emptyVolume)) = [] := by decide
    simp [hlog]

end SmallVolume

end Briefs.Replay
