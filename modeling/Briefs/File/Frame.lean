import Briefs.File.State

/-!
# What an operation may change

`Works env s new W s'` describes a part of an operation: it takes the free blocks `new`,
reads and writes no block but those and the blocks in `W`, and leaves the inodes, the
queued frees and the reservations alone. The parts of an operation are put together by
`Works.trans`.
-/

namespace Briefs.File

open Lib Alloc Btree
open Bridge (BlockRun RunAccum)

variable {env : Env} {s t u : FS} {new more : List ℕ} {W W' : ℕ → Prop} {b : ℕ}

theorem ne_zero_of_free (h : Free env s b) : b ≠ 0 := by
  obtain ⟨rel, hrel, rfl, -⟩ := h
  omega

theorem inRegion_of_free (h : Free env s b) : env.dataRegionStart < b := by
  obtain ⟨rel, hrel, rfl, -⟩ := h
  omega

structure Works (env : Env) (s : FS) (new : List ℕ) (W : ℕ → Prop) (s' : FS) : Prop where
  nodup : new.Nodup
  free : ∀ b ∈ new, Free env s b
  taken : ∀ b ∈ new, ¬Free env s' b
  shrinks : ∀ b, Free env s' b → Free env s b
  listed : s'.allocated.blocks = s.allocated.blocks ++ new.map (· - env.dataRegionStart)
  dev : ∀ b, ¬W b → b ∉ new → s'.dev b = s.dev b
  touched : ∀ b ∈ s'.touched, b ∈ s.touched ∨ W b ∨ b ∈ new
  inodes : s'.inodes = s.inodes
  pending : s'.pendingFrees = s.pendingFrees
  chains : s'.xattrBlocks = s.xattrBlocks
  reserved : s'.unwrittenRes = s.unwrittenRes
  shield : s'.dataAlloc.metaShield = s.dataAlloc.metaShield

namespace Works

theorem refl (s : FS) (W : ℕ → Prop) : Works env s [] W s where
  nodup := List.nodup_nil
  free := by simp
  taken := by simp
  shrinks := fun _ h => h
  listed := by simp
  dev := fun _ _ _ => rfl
  touched := fun _ h => .inl h
  inodes := rfl
  pending := rfl
  chains := rfl
  reserved := rfl
  shield := rfl

theorem mono (h : Works env s new W t) (hW : ∀ b, W b → W' b) : Works env s new W' t :=
  { h with
    dev := fun b hb => h.dev b fun hw => hb (hW b hw)
    touched := fun b hb => (h.touched b hb).imp id (Or.imp (hW b) id) }

theorem trans (h : Works env s new W t) (h' : Works env t more W u) :
    Works env s (new ++ more) W u where
  nodup := by
    refine List.nodup_append.mpr ⟨h.nodup, h'.nodup, ?_⟩
    rintro a ha b hb rfl
    exact h.taken a ha (h'.free a hb)
  free := by
    intro b hb
    rcases List.mem_append.mp hb with hb | hb
    · exact h.free b hb
    · exact h.shrinks b (h'.free b hb)
  taken := by
    intro b hb hfree
    rcases List.mem_append.mp hb with hb | hb
    · exact h.taken b hb (h'.shrinks b hfree)
    · exact h'.taken b hb hfree
  shrinks := fun b hb => h.shrinks b (h'.shrinks b hb)
  listed := by rw [h'.listed, h.listed, List.map_append, List.append_assoc]
  dev := by
    intro b hW hnew
    rw [List.mem_append, not_or] at hnew
    rw [h'.dev b hW hnew.2, h.dev b hW hnew.1]
  touched := by
    intro b hb
    rw [List.mem_append]
    rcases h'.touched b hb with hb | hb | hb
    · rcases h.touched b hb with hb | hb | hb
      · exact .inl hb
      · exact .inr (.inl hb)
      · exact .inr (.inr (.inl hb))
    · exact .inr (.inl hb)
    · exact .inr (.inr (.inr hb))
  inodes := h'.inodes.trans h.inodes
  pending := h'.pending.trans h.pending
  chains := h'.chains.trans h.chains
  reserved := h'.reserved.trans h.reserved
  shield := h'.shield.trans h.shield

/-- What is written to the blocks taken need not be listed apart. -/
theorem absorb (h : Works env s new (fun b => W b ∨ b ∈ new) t) : Works env s new W t :=
  { h with
    dev := fun b hb hnew => h.dev b (fun hw => hw.elim hb hnew) hnew
    touched := by
      intro b hb
      rcases h.touched b hb with hb | (hb | hb) | hb
      · exact .inl hb
      · exact .inr (.inl hb)
      · exact .inr (.inr hb)
      · exact .inr (.inr hb) }

theorem notMem_of_not_free (h : Works env s new W t) (hb : ¬Free env s b) : b ∉ new :=
  fun hmem => hb (h.free b hmem)

theorem not_free (h : Works env s new W t) (hb : ¬Free env s b) : ¬Free env t b :=
  fun hfree => hb (h.shrinks b hfree)

end Works

theorem works_readBlock (env : Env) {abs : ℕ} {buf : Block} (h : readBlock abs s = (.ok buf, t)) :
    buf = (s.dev abs).bytes ∧ t.dev = s.dev ∧ Works env s [] (· = abs) t := by
  cases h
  have hrefl : Works env s [] (· = abs) s := Works.refl s _
  refine ⟨rfl, rfl, ?_⟩
  exact { hrefl with
    touched := by
      intro b hb
      rcases List.mem_cons.mp hb with rfl | hb
      · exact .inr (.inl rfl)
      · exact .inl hb }

theorem works_writeCell (env : Env) {abs : ℕ} {c : Cell} {r : Unit}
    (h : writeCell abs c s = (.ok r, t)) :
    t.dev = Function.update s.dev abs c ∧ Works env s [] (· = abs) t := by
  cases h
  have hrefl : Works env s [] (· = abs) s := Works.refl s _
  refine ⟨rfl, ?_⟩
  exact { hrefl with
    dev := fun b hb _ => Function.update_of_ne hb _ _
    touched := by
      intro b hb
      rcases List.mem_cons.mp hb with rfl | hb
      · exact .inr (.inl rfl)
      · exact .inl hb }

theorem metaShield_tryAllocBlock (a : Allocator) (forMeta : Bool) :
    (a.tryAllocBlock forMeta).2.metaShield = a.metaShield := by
  unfold Allocator.tryAllocBlock
  split_ifs
  · rfl
  · split <;> rfl

/-- Blocks are taken from the allocator and listed. -/
theorem works_take {rels : List ℕ} {a : Allocator} {acc : RunAccum} (hnodup : rels.Nodup)
    (htaken : ∀ rel ∈ rels, rel ≠ 0 ∧ s.dataAlloc.isFree rel = true ∧ a.isFree rel = false)
    (hshrinks : ∀ rel, a.isFree rel = true → s.dataAlloc.isFree rel = true)
    (hshield : a.metaShield = s.dataAlloc.metaShield)
    (hacc : acc.blocks = s.allocated.blocks ++ rels) :
    Works env s (rels.map (env.dataRegionStart + ·)) W { s with dataAlloc := a, allocated := acc } where
  nodup := hnodup.map fun _ _ => Nat.add_left_cancel
  free := by
    intro b hb
    obtain ⟨rel, hrel, rfl⟩ := List.mem_map.mp hb
    exact ⟨rel, (htaken rel hrel).1, rfl, (htaken rel hrel).2.1⟩
  taken := by
    rintro b hb ⟨rel', -, heq, hfree⟩
    obtain ⟨rel, hrel, rfl⟩ := List.mem_map.mp hb
    obtain rfl := Nat.add_left_cancel heq
    exact Bool.false_ne_true ((htaken rel hrel).2.2.symm.trans hfree)
  shrinks := by
    rintro b ⟨rel, hne, heq, hfree⟩
    exact ⟨rel, hne, heq, hshrinks rel hfree⟩
  listed := by
    have hback : (rels.map (env.dataRegionStart + ·)).map (· - env.dataRegionStart) = rels := by
      simp [Function.comp_def]
    rw [hback]
    exact hacc
  dev := fun _ _ _ => rfl
  touched := fun _ hb => .inl hb
  inodes := rfl
  pending := rfl
  chains := rfl
  reserved := rfl
  shield := hshield

theorem works_allocBlock {forMeta : Bool} (h : allocBlock env forMeta s = (.ok b, t)) :
    t.dev = s.dev ∧ Works env s [b] W t := by
  obtain ⟨-, hshrinks, htaken⟩ := s.dataAlloc.tryAllocBlock_spec forMeta
  have hshield := metaShield_tryAllocBlock s.dataAlloc forMeta
  unfold allocBlock at h
  rcases hres : s.dataAlloc.tryAllocBlock forMeta with ⟨rel, a⟩
  rw [hres] at h hshrinks htaken hshield
  dsimp only at h hshrinks htaken hshield
  split_ifs at h with hzero
  · exact absurd (Prod.mk.inj h).1 (by simp)
  cases h
  obtain ⟨-, hwas, hnow⟩ := htaken hzero
  refine ⟨rfl, works_take (List.nodup_singleton rel) ?_ hshrinks hshield ?_⟩
  · intro rel' hrel
    rw [List.mem_singleton.mp hrel]
    exact ⟨hzero, hwas, hnow⟩
  · simp [RunAccum.addBlock, RunAccum.blocks_addRun]

theorem works_repeats {forMeta : Bool} (h : Call.Repeats (allocBlock env forMeta) s new t) :
    t.dev = s.dev ∧ Works env s new W t := by
  induction h with
  | nil => exact ⟨rfl, Works.refl _ _⟩
  | cons hcall _ ih =>
    obtain ⟨hdev, hworks⟩ := works_allocBlock (W := W) hcall
    exact ⟨ih.1.trans hdev, hworks.trans ih.2⟩

end Briefs.File
