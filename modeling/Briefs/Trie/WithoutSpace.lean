import Briefs.Trie.Links

/-!
# Inserts without space

An insert that answers ENOSPC finds no block left in the data allocator, unless the name leads
to a node that is there already, whose page has no room for it. A request that failed shows in
no later answer.
-/

namespace Briefs.Trie

open Lib

variable {g : Geometry} {K : Rest} {F : Forest} {s : Dirs} {m : Maps} {d : ℕ} {name : Bytes}
  {ref : Ref} {ino ftype : ℕ}

/-- The ref the bytes of a name lead to. -/
inductive Store.Spells (s : Store) (root : Ref) : Bytes → Ref → Prop
  | nil : root ≠ 0 → Spells s root [] root
  | snoc {name : Bytes} {ref c : Ref} {slot slot' : TrieSlot} {l : List (Ref × TrieSlot)} :
      Spells s root name ref → s.slotAt ref = some slot → s.Siblings slot.firstChild l →
      (c, slot') ∈ l → Spells s root (name ++ [slot'.byteVal]) c

theorem Hold.spells (h : Hold g K F s m) (p : Bytes) (hp : F.node (d, p) = some ref) :
    s.store.Spells (s.root d) p.reverse ref := by
  have hok := h.tries.ok
  induction p generalizing ref with
  | nil =>
    have hroot : s.root d = ref := by rw [h.root, Forest.ref, hp]; rfl
    rw [← hroot]
    refine .nil ?_
    intro hzero
    rw [← hroot, hzero] at hp
    exact hok.pos _ hp
  | cons b p ih =>
    have hb : b ∈ F.kids (d, p) := (hok.kids (d, p) b).mpr (by rw [child, hp]; rfl)
    obtain ⟨r, hr⟩ := Option.isSome_iff_exists.mp (hok.parent _ b hb).1
    obtain ⟨-, n, -, -, hslot, hfit⟩ := h.node hr
    obtain ⟨l, hl, hmap⟩ := h.siblings (x := (d, p)) (F.kids (d, p)) [] rfl
    rw [← hfit.firstChild] at hl
    have hmem : (ref, b) ∈ l.map fun e => (e.1, e.2.byteVal) := by
      rw [hmap]
      refine List.mem_map.mpr ⟨b, hb, ?_⟩
      rw [Forest.ref, child, hp]
      rfl
    obtain ⟨⟨c, slot⟩, hin, heq⟩ := List.mem_map.mp hmem
    obtain ⟨rfl, rfl⟩ := Prod.mk.inj heq
    rw [List.reverse_cons]
    exact .snoc (ih hr) hslot hl hin

theorem Store.sync_abort (s : Store) (ckpt : Bool) : s.abort.sync ckpt = (s.sync ckpt).abort := by
  unfold Store.sync
  by_cases hdirty : s.tape.ring.dirty = true
  · rw [if_pos hdirty, if_pos (show s.abort.tape.ring.dirty = true from hdirty)]
    unfold Store.retirePools
    by_cases hfull : decide s.tape.ring.full = true
    · rw [if_pos hfull, if_pos (show decide s.abort.tape.ring.full = true from hfull)]
      rfl
    · rw [if_neg hfull, if_neg (show ¬ decide s.abort.tape.ring.full = true from hfull)]
      rfl
  · rw [if_neg hdirty, if_neg (show ¬ s.abort.tape.ring.dirty = true from hdirty)]

/-- An allocation does not depend on the operation under way. -/
theorem Store.allocBlock_abort (s : Store) : s.abort.allocBlock.1 = s.allocBlock.1 := by
  have htry : s.abort.tryAllocBlock = (s.tryAllocBlock.1, s.tryAllocBlock.2.abort) := rfl
  rcases hr : s.tryAllocBlock with ⟨rel, u⟩
  rw [hr] at htry
  cases rel with
  | succ rel => rw [Store.allocBlock_of_succ hr, Store.allocBlock_of_succ htry]
  | zero =>
    rw [Store.allocBlock_of_zero hr, Store.allocBlock_of_zero htry, u.sync_abort]
    by_cases hcount : u.pendingFrees.count = 0
    · rw [if_pos hcount, if_pos (show u.abort.pendingFrees.count = 0 from hcount)]
    · rw [if_neg hcount, if_neg (show ¬ u.abort.pendingFrees.count = 0 from hcount)]
      rfl

/-- In every state requests lead to, an insert runs out of space only when the data allocator
has no block left, if the page of the node the name leads to, should there be one, has room for
the name. -/
theorem insert_enospc_without_block {g : Geometry} {s : Store} (h : Ready g s)
    (requests : List Request) {d : ℕ} {name : Bytes} {ino ftype : ℕ} (hname : name ≠ [])
    (hmax : name.length ≤ maxNameLen)
    (hroom : ∀ ref, ((Dirs.empty s).run g requests).2.store.Spells
      (((Dirs.empty s).run g requests).2.root d) name ref →
      ¬ NoRoom ((Dirs.empty s).run g requests).2.store ref name)
    (hspace : (((Dirs.empty s).run g requests).2.step g (.insert d name ino ftype)).1 =
      .failed (.errno .enospc)) :
    (((Dirs.empty s).run g requests).2.step g (.insert d name ino ftype)).2.store.allocBlock.1 = 0 := by
  obtain ⟨K, F, hK, hexact, -, hend⟩ := h.runs True (fun _ => ⟨h.whole, h.reserved⟩)
    requests
  simp only [Dirs.step, Dirs.operation, hend.root] at hspace ⊢
  rcases (Forest.post_trieInsert hend.begun d ino ftype hname hmax).cases
    with ⟨root, t, hrun, -⟩ | ⟨e, t, hrun, he⟩
  · rw [hrun] at hspace
    cases hspace
  · rw [hrun]
    cases he with
    | stuck hstuck => exact t.allocBlock_abort.trans (hstuck.2.1 (by rw [hexact]; trivial))
    | full hnode hnoRoom _ =>
      rw [List.reverse_reverse] at hnoRoom
      obtain ⟨p, e, hview, halloc⟩ := hnoRoom
      have hspells := hend.spells _ hnode
      rw [List.reverse_reverse] at hspells
      refine absurd ⟨p, e, ?_, halloc⟩ (hroom _ hspells)
      rw [← hend.settled]
      exact hview
    | taken _ _ _ =>
      rw [hrun] at hspace
      cases hspace

theorem Store.Spells.root_ne {s : Store} {root : Ref} (h : s.Spells root name ref) : root ≠ 0 := by
  induction h with
  | nil hne => exact hne
  | snoc _ _ _ _ ih => exact ih

/-- Seven directories take the seven free blocks of the sample. -/
def sevenDirectories : List Request := (List.range 7).map fun d => .insert (d + 1) [97] 5 8

theorem insert_enospc_sample :
    (((Dirs.empty sampleStore).run sampleGeometry sevenDirectories).2.step sampleGeometry
      (.insert 8 [97] 5 8)).1 = .failed (.errno .enospc) ∧
    (((Dirs.empty sampleStore).run sampleGeometry sevenDirectories).2.step sampleGeometry
      (.insert 8 [97] 5 8)).2.store.allocBlock.1 = 0 := by
  have hspace : (((Dirs.empty sampleStore).run sampleGeometry sevenDirectories).2.step sampleGeometry
      (.insert 8 [97] 5 8)).1 = .failed (.errno .enospc) := by decide +kernel
  have hroot : ((Dirs.empty sampleStore).run sampleGeometry sevenDirectories).2.root 8 = 0 := by
    decide +kernel
  exact ⟨hspace, insert_enospc_without_block ready_sampleStore sevenDirectories (by decide)
    (by decide) (fun _ hspells => absurd hroot hspells.root_ne) hspace⟩

/-- A name of 192 bytes. The nodes of its path fill three pages, and its own is the first of
the fourth. -/
def stem : Bytes := List.replicate 192 97

/-- Nine names behind the stem; they fill the name heap of the page its node is in. -/
def crowdRequests : List Request :=
  (List.range 9).map fun i => .insert 1 (stem ++ [UInt8.ofNat i]) 5 8

/-- The name of the stem is not there and cannot be inserted, although there are free blocks. -/
theorem insert_enospc_with_blocks : Ready sampleGeometry sampleStore ∧
    (((Dirs.empty sampleStore).run sampleGeometry crowdRequests).2.step sampleGeometry
      (.lookup 1 stem)).1 = .missing ∧
    (((Dirs.empty sampleStore).run sampleGeometry crowdRequests).2.step sampleGeometry
      (.insert 1 stem 5 8)).1 = .failed (.errno .enospc) ∧
    (((Dirs.empty sampleStore).run sampleGeometry crowdRequests).2.step sampleGeometry
      (.insert 1 stem 5 8)).2.store.allocBlock.1 ≠ 0 :=
  ⟨ready_sampleStore, by decide +kernel⟩

/-- Requests that failed, also halfway through for lack of space, leave nothing behind that
another request can tell: it is answered from what the requests that were done put there, or it
is an insert that fails for its name or for lack of space itself. -/
theorem answers_after_failures {g : Geometry} {s : Store} (h : Fresh g s) (requests : List Request)
    (c : Request) (hc : ∀ d name ino ftype, c = .insert d name ino ftype →
      name ≠ [] ∧ name.length ≤ maxNameLen ∧
        (((Dirs.empty s).run g requests).2.step g c).1 ≠ .failed (.errno .enospc)) :
    (((Dirs.empty s).run g requests).2.step g c).1 =
      ((Maps.commits (fun _ => ∅) requests ((Dirs.empty s).run g requests).1).step c).1 := by
  obtain ⟨K, F, hK, -, -, hhold⟩ := h.runs False False.elim requests
  cases c with
  | insert d name ino ftype =>
    obtain ⟨hname, hmax, hspace⟩ := hc d name ino ftype rfl
    exact (hhold.insert hname hmax hspace).1
  | remove d name => exact (hhold.remove hK.floor).1
  | update d name ino ftype => exact hhold.update.1
  | lookup d name => exact (hhold.find d name).1

/-- The last of these inserts fails. -/
def overfull : List Request := crowdRequests ++ [.insert 1 stem 5 8]

theorem answers_after_failures_overfull :
    (((Dirs.empty sampleStore).run sampleGeometry overfull).2.step sampleGeometry
      (.remove 1 stem)).1 = ((Maps.commits (fun _ => ∅) overfull
        ((Dirs.empty sampleStore).run sampleGeometry overfull).1).step (.remove 1 stem)).1 :=
  answers_after_failures fresh_sampleStore overfull _ (by simp)

end Briefs.Trie
