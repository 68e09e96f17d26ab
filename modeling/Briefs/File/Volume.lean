import Briefs.File.Data

/-!
# The files of a volume

`Ok` says of a volume that each of its files is well formed and that no block belongs to
two of them. An operation on one file is summed up by `Effect`: it writes to blocks of that
file and to free blocks, and what it gives up waits for the next sync. From that alone the
other files keep their bytes.
-/

namespace Briefs.File

open Lib Alloc Btree
open Bridge (BlockRun RunAccum)
open Dir (inodeFlagIndexed)

/-- Block numbers have 64 bits, and no block is free and queued to be freed. -/
structure Room (env : Env) (s : FS) : Prop where
  fits : ∀ b, Free env s b ∨ Pending env s b → b < 2 ^ 64
  idle : ∀ b, Free env s b → ¬Pending env s b

/-- The same file, up to its mode, its attributes and its times. -/
def SameFile (i j : Inode) : Prop :=
  i = { j with
    filemode := i.filemode
    xattrOffset := i.xattrOffset
    ctime := i.ctime
    mtime := i.mtime }

/-- What an operation does that starts with the inode `i` and leaves `i'`. -/
structure Effect (env : Env) (s : FS) (i : Inode) (t : FS) (i' : Inode) : Prop where
  inodes : t.inodes = Function.update s.inodes i.inodeNumber i'
  number : i'.inodeNumber = i.inodeNumber
  mode : i'.filemode = i.filemode
  dev : ∀ b, ¬Free env s b → ¬Owned s i b → t.dev b = s.dev b
  free : ∀ b, Free env t b → Free env s b
  pending : ∀ b, Pending env t b ↔ Pending env s b ∨ Owned s i b ∧ ¬Owned t i' b
  owned : ∀ b, Owned t i' b → Owned s i b ∨ Free env s b ∧ ¬Free env t b
  chains : t.xattrBlocks = s.xattrBlocks

variable {env : Env} {s t u v : FS} {i i' j : Inode} {exts exts' newExts : List Extent}
  {nodes nodes' new more : List ℕ} {tree : ExtentTree} {W : ℕ → Prop} {b k p f pos size : ℕ}

/-! ### Blocks in use -/

theorem Works.inUse (h : Works env s new W t) (hb : InUse env s b) : InUse env t b where
  region := hb.region
  fits := hb.fits
  taken := h.not_free hb.taken
  kept := by
    rintro ⟨rel, hrel, heq⟩
    rw [h.pending] at hrel
    exact hb.kept ⟨rel, hrel, heq⟩

theorem Works.inUse_new (h : Works env s new W t) (hroom : Room env s) (hb : b ∈ new) :
    InUse env t b where
  region := inRegion_of_free (h.free b hb)
  fits := hroom.fits b (.inl (h.free b hb))
  taken := h.taken b hb
  kept := by
    rintro ⟨rel, hrel, heq⟩
    rw [h.pending] at hrel
    exact hroom.idle b (h.free b hb) ⟨rel, hrel, heq⟩

theorem Works.room (h : Works env s new W t) (hroom : Room env s) : Room env t where
  fits := by
    rintro b (hb | ⟨rel, hrel, heq⟩)
    · exact hroom.fits b (.inl (h.shrinks b hb))
    · rw [h.pending] at hrel
      exact hroom.fits b (.inr ⟨rel, hrel, heq⟩)
  idle := by
    rintro b hb ⟨rel, hrel, heq⟩
    rw [h.pending] at hrel
    exact hroom.idle b (h.shrinks b hb) ⟨rel, hrel, heq⟩

/-! ### Inodes of one file -/

theorem Stores.same {dev : ℕ → Cell} (h : Stores dev j exts nodes) (hi : SameFile i j) :
    Stores dev i exts nodes := by
  rw [hi]
  cases h with
  | inline hidx hlen hnum hexts hzero => exact .inline hidx hlen hnum hexts hzero
  | tree hidx hne hdepth hden hnodup => exact .tree hidx hne hdepth hden hnodup

theorem collectExtentTree_same (dev : ℕ → Cell) (hi : SameFile i j) :
    collectExtentTree dev i = collectExtentTree dev j := by
  rw [hi]
  rfl

theorem Backed.same (h : Backed env s j exts nodes) (hi : SameFile i j) :
    Backed env s i exts nodes := by
  have hstores := h.stores.same hi
  have hdata := h.data
  have htotal := h.total
  have hbound := h.bound
  have htail := h.tail
  rw [hi] at hstores ⊢
  exact ⟨hdata, hstores, htotal, h.proper, h.apart, hbound, h.own, htail⟩

theorem Inlined.same (h : Inlined j) (hi : SameFile i j) : Inlined i := by
  rw [hi]
  exact ⟨h.flag, h.short, h.tail⟩

theorem FileOk.same (h : FileOk env s j) (hi : SameFile i j) : FileOk env s i := by
  refine ⟨?_, ?_⟩
  · rw [hi]
    exact h.size
  · rcases h.form with hin | ⟨exts, nodes, hbacked⟩
    · exact .inl (hin.same hi)
    · exact .inr ⟨exts, nodes, hbacked.same hi⟩

theorem owned_same (hi : SameFile i j) : Owned s i b ↔ Owned s j b := by
  rw [Owned, collectExtentTree_same s.dev hi]
  exact Iff.rfl

theorem leads_same (hi : SameFile i j) : Leads s i k p f ↔ Leads s j k p f := by
  rw [Leads, collectExtentTree_same s.dev hi]
  exact Iff.rfl

theorem neat_same (hi : SameFile i j) : Neat i ↔ Neat j := by
  rw [hi]
  exact Iff.rfl

theorem content_same (hi : SameFile i j) : content s i = content s j := by
  rw [hi]
  rfl

/-! ### Frames -/

theorem byteAt_frame {dev dev' : ℕ → Cell} (h : Proper exts)
    (hdev : ∀ b, Mapped exts b → dev' b = dev b) : byteAt dev' exts = byteAt dev exts := by
  funext pos
  refine byteAt_congr h h rfl (fun _ _ => Iff.rfl) fun p hmaps => ?_
  rw [hdev p ⟨_, _, hmaps⟩]

theorem Backed.frame (h : Backed env s i exts nodes) (hdev : ∀ b, Owned s i b → t.dev b = s.dev b)
    (huse : ∀ b, Owned s i b → InUse env t b) : Backed env t i exts nodes where
  data := h.data
  stores := h.stores.congr fun b hb => hdev b (h.owned_iff.mpr (.inl hb))
  total := h.total
  proper := h.proper
  apart := h.apart
  bound := h.bound
  own := fun b hb => huse b (h.owned_iff.mpr hb)
  tail := by
    rw [byteAt_frame h.proper fun b hb => hdev b (h.owned_iff.mpr (.inr hb))]
    exact h.tail

/-- A file keeps its bytes where its blocks stay as they are. -/
theorem FileOk.frame (h : FileOk env s i) (hdev : ∀ b, Owned s i b → t.dev b = s.dev b)
    (huse : ∀ b, Owned s i b → InUse env t b) :
    FileOk env t i ∧ (∀ b, Owned t i b ↔ Owned s i b) ∧ content t i = content s i ∧
      ∀ k p f, Leads t i k p f ↔ Leads s i k p f := by
  rcases h.form with hin | ⟨exts, nodes, hbacked⟩
  · refine ⟨⟨h.size, .inl hin⟩, ?_, ?_, ?_⟩
    · exact fun b => iff_of_false hin.not_owned hin.not_owned
    · rw [hin.content_eq, hin.content_eq]
    · exact fun k p f => iff_of_false (fun h => hin.not_owned h.owned) fun h => hin.not_owned h.owned
  · have hbacked' := hbacked.frame hdev huse
    refine ⟨⟨h.size, .inr ⟨exts, nodes, hbacked'⟩⟩, ?_, ?_, ?_⟩
    · exact fun b => hbacked'.owned_iff.trans hbacked.owned_iff.symm
    rotate_left
    · exact fun k p f => hbacked'.leads_iff.trans hbacked.leads_iff.symm
    · rw [hbacked'.content_eq, hbacked.content_eq]
      exact byteAt_frame hbacked.proper fun b hb => hdev b (hbacked.owned_iff.mpr (.inr hb))

/-! ### Volumes -/

structure Ok (env : Env) (s : FS) : Prop where
  room : Room env s
  number : ∀ ino, isFile (s.inodes ino) → (s.inodes ino).inodeNumber = ino
  file : ∀ ino, isFile (s.inodes ino) → FileOk env s (s.inodes ino)
  apart : ∀ ino ino' b, isFile (s.inodes ino) → isFile (s.inodes ino') → Owned s (s.inodes ino) b →
    Owned s (s.inodes ino') b → ino = ino'
  chain : ∀ ino, ∀ b ∈ s.xattrBlocks ino, b < 2 ^ 64 ∧ ¬Free env s b ∧ ¬Pending env s b
  chainApart : ∀ ino ino' b, b ∈ s.xattrBlocks ino → b ∈ s.xattrBlocks ino' → ino = ino'
  filesApart : ∀ ino ino' b, isFile (s.inodes ino) → Owned s (s.inodes ino) b →
    b ∉ s.xattrBlocks ino'

/-- A volume whose files were never written to. -/
structure Fresh (env : Env) (s : FS) : Prop where
  room : Room env s
  files : ∀ ino, isFile (s.inodes ino) → ∃ mode now, s.inodes ino = Inode.newInode ino mode now
  chains : ∀ ino, s.xattrBlocks ino = []

theorem backed_newInode (env : Env) (s : FS) (ino mode : ℕ) (now : Time) :
    Backed env s (Inode.newInode ino mode now) [] [] where
  data := fun hflag => hflag (Nat.zero_and _)
  stores := .inline (fun hflag => hflag (Nat.zero_and _)) (by simp) rfl rfl fun _ _ => rfl
  total := rfl
  proper := proper_nil
  apart := fun _ _ _ h => absurd h Pieces.at_nil
  bound := fun _ _ _ h => absurd h Pieces.at_nil
  own := by
    rintro b (hb | ⟨k, f, hmaps⟩)
    · exact absurd hb List.not_mem_nil
    · exact absurd hmaps Pieces.at_nil
  tail := fun _ _ => byteAt_of_gap proper_nil fun _ _ => Pieces.at_nil

theorem Fresh.ok (h : Fresh env s) : Ok env s := by
  have hnone : ∀ ino b, isFile (s.inodes ino) → ¬Owned s (s.inodes ino) b := by
    intro ino b hf hb
    obtain ⟨mode, now, heq⟩ := h.files ino hf
    rw [heq, (backed_newInode env s ino mode now).owned_iff] at hb
    rcases hb with hb | ⟨k, f, hmaps⟩
    · exact List.not_mem_nil hb
    · exact Pieces.at_nil hmaps
  refine ⟨h.room, ?_, ?_, ?_, ?_, ?_, ?_⟩
  · intro ino hf
    obtain ⟨mode, now, heq⟩ := h.files ino hf
    rw [heq]
    rfl
  · intro ino hf
    obtain ⟨mode, now, heq⟩ := h.files ino hf
    rw [heq]
    exact ⟨Nat.zero_le _, .inr ⟨[], [], backed_newInode env s ino mode now⟩⟩
  · exact fun ino _ b hf _ hb => absurd hb (hnone ino b hf)
  · exact fun ino b hb => absurd (h.chains ino ▸ hb) List.not_mem_nil
  · exact fun ino _ b hb => absurd (h.chains ino ▸ hb) List.not_mem_nil
  · exact fun ino _ b hf hb => absurd hb (hnone ino b hf)

theorem fresh_freshVolume : Fresh plainEnv freshVolume := by
  have hfree : ∀ b, Free plainEnv freshVolume b → b < 74 := by
    rintro b ⟨rel, -, rfl, hfree⟩
    by_contra hge
    have hword : rel / 64 ≠ 0 := by
      change ¬10 + rel < 74 at hge
      omega
    change ([~~~1].getD (rel / 64) 0 : Word).getLsbD (rel % 64) = true at hfree
    rw [List.getD_eq_getElem?_getD, List.getElem?_eq_none (by simp; omega)] at hfree
    simp at hfree
  have hpending : ∀ b, ¬Pending plainEnv freshVolume b := by
    rintro b ⟨rel, hrel, -⟩
    exact List.not_mem_nil hrel
  refine ⟨⟨?_, fun b _ => hpending b⟩, fun ino _ => ⟨modeFile, ⟨0, 0⟩, rfl⟩, fun _ => rfl⟩
  rintro b (hb | hb)
  · exact (hfree b hb).trans (by norm_num)
  · exact absurd hb (hpending b)

/-- An operation on one file leaves the others alone. -/
theorem Effect.others {ino : ℕ} (h : Effect env s i t i') (hok : Ok env s)
    (hi : SameFile i (s.inodes i.inodeNumber)) (hfile : isFile (s.inodes i.inodeNumber))
    (hino : ino ≠ i.inodeNumber) (hother : isFile (s.inodes ino)) :
    t.inodes ino = s.inodes ino ∧ FileOk env t (s.inodes ino) ∧
      (∀ b, Owned t (s.inodes ino) b ↔ Owned s (s.inodes ino) b) ∧
      content t (s.inodes ino) = content s (s.inodes ino) ∧
      ∀ k p f, Leads t (s.inodes ino) k p f ↔ Leads s (s.inodes ino) k p f := by
  have hforeign : ∀ b, Owned s (s.inodes ino) b → ¬Owned s i b := by
    intro b hb hown
    exact hino (hok.apart _ _ b hother hfile hb ((owned_same hi).mp hown))
  have huse : ∀ b, Owned s (s.inodes ino) b → InUse env s b := fun b hb =>
    (hok.file ino hother).inUse hb
  refine ⟨by rw [h.inodes, Function.update_of_ne hino], ?_⟩
  refine (hok.file ino hother).frame ?_ ?_
  · exact fun b hb => h.dev b (huse b hb).taken (hforeign b hb)
  · intro b hb
    obtain ⟨hregion, hfits, htaken, hkept⟩ := huse b hb
    refine ⟨hregion, hfits, fun hfree => htaken (h.free b hfree), fun hpending => ?_⟩
    rcases (h.pending b).mp hpending with hold | ⟨hown, -⟩
    · exact hkept hold
    · exact hforeign b hb hown

theorem Effect.ok (h : Effect env s i t i') (hok : Ok env s)
    (hi : SameFile i (s.inodes i.inodeNumber)) (hfile : isFile (s.inodes i.inodeNumber))
    (hi' : FileOk env t i') : Ok env t := by
  have hself : t.inodes i.inodeNumber = i' := by rw [h.inodes, Function.update_self]
  have hold : ∀ ino, ino ≠ i.inodeNumber → t.inodes ino = s.inodes ino := by
    intro ino hino
    rw [h.inodes, Function.update_of_ne hino]
  have hown : FileOk env s i := (hok.file _ hfile).same hi
  -- what the file has now is no block of another file or of a chain
  have hclaim : ∀ b, Owned t i' b → Owned s (s.inodes i.inodeNumber) b ∨ Free env s b := by
    intro b hb
    rcases h.owned b hb with hb | ⟨hfree, -⟩
    · exact .inl ((owned_same hi).mp hb)
    · exact .inr hfree
  have hother : ∀ ino b, ino ≠ i.inodeNumber → isFile (s.inodes ino) → Owned t (t.inodes ino) b →
      Owned s (s.inodes ino) b := by
    intro ino b hino hf hb
    rw [hold ino hino] at hb
    exact ((h.others hok hi hfile hino hf).2.2.1 b).mp hb
  have happart : ∀ ino b, ino ≠ i.inodeNumber → isFile (s.inodes ino) → Owned t (t.inodes ino) b →
      ¬Owned t i' b := by
    intro ino b hino hf hb hb'
    have hb := hother ino b hino hf hb
    rcases hclaim b hb' with hb' | hfree
    · exact hino (hok.apart _ _ b hf hfile hb hb')
    · exact ((hok.file ino hf).inUse hb).taken hfree
  refine ⟨⟨?_, ?_⟩, ?_, ?_, ?_, ?_, ?_, ?_⟩
  · rintro b (hb | hb)
    · exact hok.room.fits b (.inl (h.free b hb))
    · rcases (h.pending b).mp hb with hb | ⟨hb, -⟩
      · exact hok.room.fits b (.inr hb)
      · exact (hown.inUse hb).fits
  · intro b hb hpending
    rcases (h.pending b).mp hpending with hp | ⟨ho, -⟩
    · exact hok.room.idle b (h.free b hb) hp
    · exact (hown.inUse ho).taken (h.free b hb)
  · intro ino hf
    by_cases hino : ino = i.inodeNumber
    · subst hino
      rw [hself, h.number]
    · rw [hold ino hino] at hf ⊢
      exact hok.number ino hf
  · intro ino hf
    by_cases hino : ino = i.inodeNumber
    · subst hino
      rwa [hself]
    · rw [hold ino hino] at hf ⊢
      exact (h.others hok hi hfile hino hf).2.1
  · intro ino ino' b hf hf' hb hb'
    by_cases hino : ino = i.inodeNumber
    · by_cases hino' : ino' = i.inodeNumber
      · rw [hino, hino']
      · rw [hold ino' hino'] at hf'
        rw [hino, hself] at hb
        exact absurd hb (happart ino' b hino' hf' hb')
    · rw [hold ino hino] at hf
      by_cases hino' : ino' = i.inodeNumber
      · rw [hino', hself] at hb'
        exact absurd hb' (happart ino b hino hf hb)
      · rw [hold ino' hino'] at hf'
        exact hok.apart _ _ b hf hf' (hother ino b hino hf hb) (hother ino' b hino' hf' hb')
  · intro ino b hb
    rw [h.chains] at hb
    obtain ⟨hfits, htaken, hkept⟩ := hok.chain ino b hb
    refine ⟨hfits, fun hfree => htaken (h.free b hfree), fun hpending => ?_⟩
    rcases (h.pending b).mp hpending with hp | ⟨ho, -⟩
    · exact hkept hp
    · exact hok.filesApart _ ino b hfile ((owned_same hi).mp ho) hb
  · rw [h.chains]
    exact hok.chainApart
  · intro ino ino' b hf hb
    rw [h.chains]
    by_cases hino : ino = i.inodeNumber
    · rw [hino, hself] at hb
      rcases hclaim b hb with hb | hfree
      · exact hok.filesApart _ ino' b hfile hb
      · exact fun hmem => (hok.chain ino' b hmem).2.1 hfree
    · rw [hold ino hino] at hf
      exact hok.filesApart _ ino' b hf (hother ino b hino hf hb)

/-! ### Privileges -/

/-- Every file is as it was, up to its mode, its attributes and its times. -/
structure Calm (env : Env) (s t : FS) : Prop where
  files : ∀ ino, isFile (t.inodes ino) ↔ isFile (s.inodes ino)
  same : ∀ ino, isFile (s.inodes ino) → SameFile (t.inodes ino) (s.inodes ino)
  owned : ∀ ino b, isFile (s.inodes ino) →
    (Owned t (t.inodes ino) b ↔ Owned s (s.inodes ino) b)
  content : ∀ ino, isFile (s.inodes ino) →
    content t (t.inodes ino) = content s (s.inodes ino)
  leads : ∀ ino k p f, isFile (s.inodes ino) →
    (Leads t (t.inodes ino) k p f ↔ Leads s (s.inodes ino) k p f)
  pending : ∀ b, Pending env t b → Pending env s b

theorem SameFile.refl (i : Inode) : SameFile i i := rfl

theorem SameFile.trans {a b c : Inode} (h : SameFile a b) (h' : SameFile b c) : SameFile a c := by
  unfold SameFile at *
  rw [h, h']

theorem SameFile.number {a b : Inode} (h : SameFile a b) : a.inodeNumber = b.inodeNumber := by
  rw [h]

theorem SameFile.fileSize {a b : Inode} (h : SameFile a b) : a.fileSize = b.fileSize := by
  rw [h]

theorem isFile_bitClear {m x : ℕ} (hx : x &&& modeTypeMask = 0) (h : m &&& modeTypeMask = modeFile) :
    bitClear m x &&& modeTypeMask = modeFile := by
  rw [bitClear, Nat.and_xor_distrib_right, Nat.and_assoc, hx, h, Nat.and_zero, Nat.xor_zero]

theorem privBits_and (env : Env) (i : Inode) : privBits env i &&& modeTypeMask = 0 := by
  unfold privBits
  split_ifs <;> rfl

theorem Clears.ok (h : Clears env.dataRegionStart i s i' t) (hok : Ok env s)
    (hi : SameFile i (s.inodes i.inodeNumber)) (hfile : isFile (s.inodes i.inodeNumber))
    (hfile' : isFile i) :
    Ok env t ∧ Calm env s t ∧ SameFile i' (t.inodes i.inodeNumber) := by
  have hi' : SameFile i' i := by
    unfold SameFile
    rw [h.inode]
  have hother : ∀ ino, ino ≠ i.inodeNumber → t.inodes ino = s.inodes ino := by
    intro ino hino
    rcases h.inodes with heq | heq
    · rw [heq]
    · rw [heq, Function.update_of_ne hino]
  have hself : t.inodes i.inodeNumber = s.inodes i.inodeNumber ∨ t.inodes i.inodeNumber = i' := by
    rcases h.inodes with heq | heq
    · exact .inl (by rw [heq])
    · exact .inr (by rw [heq, Function.update_self])
  have hsame : ∀ ino, SameFile (t.inodes ino) (s.inodes ino) := by
    intro ino
    by_cases hino : ino = i.inodeNumber
    · subst hino
      rcases hself with heq | heq
      · rw [heq]
        exact SameFile.refl _
      · rw [heq]
        exact hi'.trans hi
    · rw [hother ino hino]
      exact SameFile.refl _
  have hfiles : ∀ ino, isFile (t.inodes ino) ↔ isFile (s.inodes ino) := by
    intro ino
    by_cases hino : ino = i.inodeNumber
    · subst hino
      rcases hself with heq | heq
      · rw [heq]
      · rw [heq]
        have hmode : i'.filemode = i.filemode := by rw [h.inode]
        refine iff_of_true ?_ hfile
        rw [isFile, hmode]
        exact hfile'
    · rw [hother ino hino]
  have hframe : ∀ ino, isFile (s.inodes ino) → FileOk env t (s.inodes ino) ∧
      (∀ b, Owned t (s.inodes ino) b ↔ Owned s (s.inodes ino) b) ∧
      content t (s.inodes ino) = content s (s.inodes ino) ∧
      ∀ k p f, Leads t (s.inodes ino) k p f ↔ Leads s (s.inodes ino) k p f := by
    intro ino hf
    have huse : ∀ b, Owned s (s.inodes ino) b → InUse env s b := fun b hb =>
      (hok.file ino hf).inUse hb
    refine (hok.file ino hf).frame (fun b hb => h.dev b (huse b hb).taken) fun b hb => ?_
    obtain ⟨hregion, hfits, htaken, hkept⟩ := huse b hb
    refine ⟨hregion, hfits, fun hfree => ?_, fun hpending => hkept (h.pending b hpending).1⟩
    rcases h.free b hfree with hfree | hpending | hchain
    · exact htaken hfree
    · exact hkept hpending
    · exact hok.filesApart ino _ b hf hb hchain
  have howned : ∀ ino b, isFile (s.inodes ino) →
      (Owned t (t.inodes ino) b ↔ Owned s (s.inodes ino) b) := fun ino b hf =>
    (owned_same (hsame ino)).trans ((hframe ino hf).2.1 b)
  have hcalm : Calm env s t := ⟨hfiles, fun ino _ => hsame ino, howned, fun ino hf =>
    (content_same (hsame ino)).trans (hframe ino hf).2.2.1, fun ino k p f hf =>
    (leads_same (hsame ino)).trans ((hframe ino hf).2.2.2 k p f), fun b hb => (h.pending b hb).1⟩
  have hchain : ∀ ino, ∀ b ∈ t.xattrBlocks ino, b ∈ s.xattrBlocks ino ∨
      ino = i.inodeNumber ∧ Free env s b := by
    intro ino b hb
    by_cases hino : ino = i.inodeNumber
    · subst hino
      rcases h.chain b hb with ⟨hb, -⟩ | ⟨hfree, -⟩
      · exact .inl hb
      · exact .inr ⟨rfl, hfree⟩
    · rw [h.others ino hino] at hb
      exact .inl hb
  refine ⟨⟨⟨?_, ?_⟩, ?_, ?_, ?_, ?_, ?_, ?_⟩, hcalm, ?_⟩
  · rintro b (hb | hb)
    · rcases h.free b hb with hfree | hpending | hin
      · exact hok.room.fits b (.inl hfree)
      · exact hok.room.fits b (.inr hpending)
      · exact (hok.chain _ b hin).1
    · exact hok.room.fits b (.inr (h.pending b hb).1)
  · intro b hfree hpending
    obtain ⟨hold, hback⟩ := h.pending b hpending
    exact hok.room.idle b (hback hfree) hold
  · intro ino hf
    rw [(hsame ino).number]
    exact hok.number ino ((hfiles ino).mp hf)
  · intro ino hf
    exact (hframe ino ((hfiles ino).mp hf)).1.same (hsame ino)
  · intro ino ino' b hf hf' hb hb'
    have hf := (hfiles ino).mp hf
    have hf' := (hfiles ino').mp hf'
    exact hok.apart _ _ b hf hf' ((howned ino b hf).mp hb) ((howned ino' b hf').mp hb')
  · intro ino b hb
    have hpending : ¬Pending env s b → ¬Pending env t b := fun hno hp => hno (h.pending b hp).1
    by_cases hino : ino = i.inodeNumber
    · subst hino
      rcases h.chain b hb with ⟨hb, hback⟩ | ⟨hfree, htaken⟩
      · obtain ⟨hfits, htaken, hkept⟩ := hok.chain _ b hb
        exact ⟨hfits, fun hfree => htaken (hback hfree), hpending hkept⟩
      · exact ⟨hok.room.fits b (.inl hfree), htaken, hpending (hok.room.idle b hfree)⟩
    · rw [h.others ino hino] at hb
      obtain ⟨hfits, htaken, hkept⟩ := hok.chain _ b hb
      refine ⟨hfits, fun hfree => ?_, hpending hkept⟩
      rcases h.free b hfree with hfree | hp | hin
      · exact htaken hfree
      · exact hkept hp
      · exact hino (hok.chainApart _ _ b hb hin)
  · intro ino ino' b hb hb'
    rcases hchain ino b hb with hb | ⟨rfl, hfree⟩
    · rcases hchain ino' b hb' with hb' | ⟨rfl, hfree⟩
      · exact hok.chainApart _ _ b hb hb'
      · exact absurd hfree (hok.chain _ b hb).2.1
    · rcases hchain ino' b hb' with hb' | ⟨rfl, -⟩
      · exact absurd hfree (hok.chain _ b hb').2.1
      · rfl
  · intro ino ino' b hf hb hmem
    have hf := (hfiles ino).mp hf
    have hb := (howned ino b hf).mp hb
    rcases hchain ino' b hmem with hmem | ⟨-, hfree⟩
    · exact hok.filesApart _ _ b hf hb hmem
    · exact ((hok.file ino hf).inUse hb).taken hfree
  · rcases hself with heq | heq
    · rw [heq]
      exact hi'.trans hi
    · rw [heq]
      exact SameFile.refl _

theorem Calm.refl (s : FS) : Calm env s s :=
  ⟨fun _ => Iff.rfl, fun _ _ => SameFile.refl _, fun _ _ _ => Iff.rfl, fun _ _ => rfl,
    fun _ _ _ _ _ => Iff.rfl, fun _ => id⟩

/-- An operation on the file `ino` has its inode `i` in memory, with nothing done to the file. -/
structure Opened (env : Env) (s : FS) (ino : ℕ) (i : Inode) (t : FS) : Prop where
  ok : Ok env t
  calm : Calm env s t
  regular : isFile (s.inodes ino)
  number : i.inodeNumber = ino
  file : isFile i
  same : SameFile i (t.inodes ino)

theorem removePrivs_spec {ino : ℕ} (hok : Ok env s) (hfile : isFile (s.inodes ino))
    (h : removePrivs env (s.inodes ino) s = (.ok i, t)) : Opened env s ino i t := by
  have hsame : SameFile (stripMode env (s.inodes ino)) (s.inodes ino) := by
    unfold stripMode
    split_ifs
    · exact SameFile.refl _
    · rfl
  have hfile' : isFile (stripMode env (s.inodes ino)) := by
    unfold stripMode
    split_ifs
    · exact hfile
    · exact isFile_bitClear (privBits_and env _) hfile
  have hnumber := hsame.number.trans (hok.number ino hfile)
  unfold removePrivs at h
  split_ifs at h with hx
  · generalize stripMode env (s.inodes ino) = j at *
    subst hnumber
    have hclears := env.clears j s i t h
    obtain ⟨hok', hcalm, hi⟩ := hclears.ok hok hsame hfile hfile'
    have hmode : i.filemode = j.filemode := by rw [hclears.inode]
    have hnum : i.inodeNumber = j.inodeNumber := by rw [hclears.inode]
    refine ⟨hok', hcalm, hfile, hnum, ?_, hi⟩
    rw [isFile, hmode]
    exact hfile'
  · obtain ⟨rfl, rfl⟩ := Call.pure_eq_ok h
    exact ⟨hok, Calm.refl _, hfile, hnumber, hfile', hsame⟩

theorem Opened.resetAllocated {ino : ℕ} {r : Unit} (h : Opened env s ino i t)
    (hreset : resetAllocated t = (.ok r, u)) : Opened env s ino i u := by
  cases hreset
  obtain ⟨⟨hroom, hnumber, hfile, hapart, hchain, hchains, hfiles⟩, hcalm, hregular, hnum, hreg,
    hsame⟩ := h
  obtain ⟨hcfiles, hcsame, howned, hcontent, hleads, hpending⟩ := hcalm
  have hfileOk : ∀ ino, isFile (t.inodes ino) →
      FileOk env { t with allocated := {} } (t.inodes ino) := by
    intro ino hf
    have huse : ∀ b, Owned t (t.inodes ino) b → InUse env { t with allocated := {} } b := by
      intro b hb
      obtain ⟨hregion, hfits, htaken, hkept⟩ := (hfile ino hf).inUse hb
      exact ⟨hregion, hfits, htaken, hkept⟩
    exact ((hfile ino hf).frame (t := { t with allocated := {} }) (fun _ _ => rfl) huse).1
  exact ⟨⟨⟨hroom.fits, hroom.idle⟩, hnumber, hfileOk, hapart, hchain, hchains, hfiles⟩,
    ⟨hcfiles, hcsame, howned, hcontent, hleads, hpending⟩, hregular, hnum, hreg, hsame⟩

/-- What a successful operation on the file `ino` leaves: its size and its bytes. The other
files keep theirs. -/
structure Outcome (env : Env) (s : FS) (ino size : ℕ) (bytes : ℕ → UInt8) (t : FS) : Prop where
  ok : Ok env t
  file : isFile (t.inodes ino)
  size : (t.inodes ino).fileSize = size
  bytes : content t (t.inodes ino) = bytes
  neat : Neat (s.inodes ino) → Neat (t.inodes ino)
  files : ∀ k, isFile (t.inodes k) → isFile (s.inodes k)
  others : ∀ k, k ≠ ino → isFile (s.inodes k) → SameFile (t.inodes k) (s.inodes k) ∧
    content t (t.inodes k) = content s (s.inodes k)

section Opened

variable {ino : ℕ}

theorem Opened.stays (h : Opened env s ino i u) : isFile (u.inodes ino) :=
  (h.calm.files ino).mpr h.regular

theorem Opened.fileOk (h : Opened env s ino i u) : FileOk env u i :=
  (h.ok.file ino h.stays).same h.same

theorem Opened.fileSize (h : Opened env s ino i u) : i.fileSize = (s.inodes ino).fileSize :=
  (h.same.trans (h.calm.same ino h.regular)).fileSize

theorem Opened.content_eq (h : Opened env s ino i u) : content u i = content s (s.inodes ino) :=
  (content_same h.same).trans (h.calm.content ino h.regular)

theorem Opened.leads_iff (h : Opened env s ino i u) :
    Leads u i k p f ↔ Leads s (s.inodes ino) k p f :=
  (leads_same h.same).trans (h.calm.leads ino k p f h.regular)

theorem Opened.owned_iff (h : Opened env s ino i u) : Owned u i b ↔ Owned s (s.inodes ino) b :=
  (owned_same h.same).trans (h.calm.owned ino b h.regular)

theorem Opened.neat_iff (h : Opened env s ino i u) : Neat i ↔ Neat (s.inodes ino) :=
  neat_same (h.same.trans (h.calm.same ino h.regular))

theorem Opened.outcome (h : Opened env s ino i u) (heffect : Effect env u i t i')
    (hi' : FileOk env t i') (hneat : Neat i → Neat i') : Outcome env s ino i'.fileSize (content t i') t := by
  have hback := h.neat_iff
  obtain ⟨hok, hcalm, hregular, rfl, hfile, hsame⟩ := h
  have hstays : isFile (u.inodes i.inodeNumber) := (hcalm.files _).mpr hregular
  have hself : t.inodes i.inodeNumber = i' := by rw [heffect.inodes, Function.update_self]
  have hreg : isFile i' := by
    rw [isFile, heffect.mode]
    exact hfile
  refine ⟨heffect.ok hok hsame hstays hi', ?_, ?_, ?_, ?_, ?_, ?_⟩
  · rwa [hself]
  · rw [hself]
  · rw [hself]
  · rw [hself]
    exact fun h => hneat (hback.mpr h)
  · intro k hf
    by_cases hk : k = i.inodeNumber
    · rwa [hk]
    · rw [heffect.inodes, Function.update_of_ne hk] at hf
      exact (hcalm.files k).mp hf
  · intro k hk hf
    obtain ⟨hinode, -, -, hcontent, -⟩ :=
      heffect.others hok hsame hstays hk ((hcalm.files k).mpr hf)
    rw [hinode, hcontent]
    exact ⟨hcalm.same k hf, hcalm.content k hf⟩

/-- A block of the file waits for the next sync after the operation if the file lost it. -/
theorem Opened.released (h : Opened env s ino i u) (heffect : Effect env u i t i')
    (hb : Owned s (s.inodes ino) b) : Pending env t b ↔ ¬Owned t i' b := by
  have hown := h.owned_iff.mpr hb
  rw [heffect.pending]
  constructor
  · rintro (hp | ⟨-, hnot⟩)
    · exact absurd hp (h.fileOk.inUse hown).kept
    · exact hnot
  · exact fun hnot => .inr ⟨hown, hnot⟩

/-- An operation releases no block but those of its file. -/
theorem Opened.pending (h : Opened env s ino i u) (heffect : Effect env u i t i')
    (hb : Pending env t b) : Pending env s b ∨ Owned s (s.inodes ino) b := by
  rcases (heffect.pending b).mp hb with hp | ⟨hown, -⟩
  · exact .inl (h.calm.pending b hp)
  · exact .inr (h.owned_iff.mp hown)

/-- A node of the extent index of the inode. -/
def IsNode (s : FS) (i : Inode) (b : ℕ) : Prop :=
  ∃ tree, collectExtentTree s.dev i = .ok tree ∧ b ∈ tree.nodes

theorem owned_cases (h : Owned s i b) : IsNode s i b ∨ ∃ k f, Leads s i k b f := by
  obtain ⟨tree, hcollect, hb | ⟨k, f, hk⟩⟩ := h
  · exact .inl ⟨tree, hcollect, hb⟩
  · exact .inr ⟨k, f, tree, hcollect, hk⟩

/-- The file has lost the blocks in `C`, and no other block. Those it lost wait for the next
sync. -/
structure Cut (env : Env) (s : FS) (ino : ℕ) (t : FS) (C : ℕ → Prop) : Prop where
  leads : ∀ k p f, Leads t (t.inodes ino) k p f ↔ ¬C k ∧ Leads s (s.inodes ino) k p f
  released : ∀ k p f, Leads s (s.inodes ino) k p f → (Pending env t p ↔ C k)
  only : ∀ b, Pending env t b → Pending env s b ∨
    (∃ k f, C k ∧ Leads s (s.inodes ino) k b f) ∨ IsNode s (s.inodes ino) b

end Opened

end Briefs.File
