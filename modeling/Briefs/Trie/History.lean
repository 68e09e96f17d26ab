import Briefs.Trie.Map

/-!
# Directories after any requests

A request that fails is aborted: the cache of the operation is dropped, but the blocks the
operation took stay allocated and in the pool of partial pages. Such a block reads as what
was in it before, perhaps a page that was given up long ago. The tries stay what they were
all the same, and the directories hold what the requests that were done put there.
-/

namespace Briefs.Trie

open Lib Lib.Program

variable {g : Geometry} {K : Rest} {F : Forest} {s t : Store}

section Abort

theorem Store.read_sync (s : Store) (ckpt : Bool) : (s.sync ckpt).blocks.read = s.blocks.read := by
  unfold Store.sync
  split_ifs
  · funext k
    simp only [Store.syncMeta, Store.syncAllocator, Store.retirePools]
    split_ifs <;> simp [Layered.drain, Layered.read]
  · rfl

theorem Store.allocBlock_of_zero {s u : Store} (h : s.tryAllocBlock = (0, u)) :
    s.allocBlock = if u.pendingFrees.count = 0 then (0, u) else (u.sync false).tryAllocBlock := by
  by_cases hcount : u.pendingFrees.count = 0 <;>
    simp [Store.allocBlock, Store.reclaimPendingFrees, h, hcount]

theorem Store.allocBlock_of_succ {s u : Store} {rel : ℕ} (h : s.tryAllocBlock = (rel + 1, u)) :
    s.allocBlock = (rel + 1, u) := by
  simp [Store.allocBlock, h]

theorem Store.read_allocBlock (s : Store) : s.allocBlock.2.blocks.read = s.blocks.read := by
  have htry : s.tryAllocBlock.2.blocks.read = s.blocks.read := rfl
  rcases hr : s.tryAllocBlock with ⟨rel, u⟩
  rw [hr] at htry
  cases rel with
  | succ rel => rw [Store.allocBlock_of_succ hr, htry]
  | zero =>
    rw [Store.allocBlock_of_zero hr]
    split_ifs
    · exact htry
    · exact (u.read_sync false).trans htry

/-- What others read does not change during an operation. -/
theorem Store.read_exec (g : Geometry) (c : Cmd) (s : Store) :
    (Store.exec g c s).2.blocks.read = s.blocks.read := by
  cases c with
  | loadBlock block =>
    simp only [Store.exec, Store.loadBlock]
    split <;> rfl
  | allocBlock => exact s.read_allocBlock
  | writeRecord r =>
    rw [show (Store.exec g (.writeRecord r) s).2 = s.writeRecord r from rfl,
      (s.writeRecord_frame r).1]
  | popReplayBlock =>
    simp only [Store.exec, Store.popReplayBlock]
    split_ifs <;> rfl
  | _ => rfl

theorem read_run {α : Type} (p : Prog α) (s : Store) :
    (p.run (Store.exec g) s).2.blocks.read = s.blocks.read := by
  refine (run_trace p s).preserves (I := fun t => t.blocks.read = s.blocks.read) rfl ?_
  rintro t c _ ht rfl
  exact (t.read_exec g c).trans ht

def Content.nodeAt : Content → ℕ → Option Node
  | .page p, i => p.nodeAt i
  | _, _ => none

/-- What remains of a failed operation: the blocks it took are in use elsewhere, or are pages
with nodes no trie leads to. -/
def Rest.leftover (K : Rest) (H : Heap) (blocks : Set ℕ) : Rest :=
  { K with used := K.used ∪ blocks, stray := K.stray ∪ { ref | H ref = none }, floor := ∅ }

/-- A failed operation leaves the nodes it found. -/
theorem Holds.aborted {pages later : Set ℕ} {H H' : Heap} (h : Holds g K pages H s)
    (hsettled : s.blocks.read = s.blocks.view) (hsound : K.sound)
    (ht : Holds g { K with floor := pages } later H' t) (hread : t.blocks.read = s.blocks.read) :
    ∃ blocks pages'' H'', Holds g (K.leftover H blocks) pages'' H'' t.abort ∧
      ∀ ref n, H ref = some n → H'' ref = some n := by
  classical
  have hshown : ∀ {b p}, Shown t.abort.blocks b p → s.blocks.read b = .page p := by
    intro b p hp
    rw [← hread]
    exact hp.elim id id
  have hview : t.abort.blocks.view = s.blocks.read := hread
  let isPage : Set ℕ := { b | ∃ p, s.blocks.read b = .page p }
  refine ⟨later \ isPage, later ∩ isPage, fun ref => if refBlock ref ∈ later then
    (s.blocks.read (refBlock ref)).nodeAt (refSlot ref) else none, ⟨?_, ?_, ?_, ?_,
    Set.empty_subset _, ?_, ?_, Layered.Tidy.clear _, ht.running⟩, ?_⟩
  · rintro b ⟨hb, p, hp⟩
    refine ⟨p, hview ▸ hp, h.sound hsound b p (.inl hp), fun i hi => ?_⟩
    rw [refBlock_makeRef, if_pos hb, hp, refSlot_makeRef hi]
    rfl
  · intro ref hout
    by_cases hb : refBlock ref ∈ later
    · rw [if_pos hb]
      cases hc : s.blocks.read (refBlock ref) with
      | page p => exact absurd ⟨hb, p, hc⟩ hout
      | _ => rfl
    · rw [if_neg hb]
  · intro b hb
    rcases ht.pool b hb with hin | ⟨hused, hnone⟩
    · by_cases hp : b ∈ isPage
      · exact .inl ⟨hin, hp⟩
      · exact .inr ⟨.inr ⟨hin, hp⟩, fun p hshow => hp ⟨p, hshown hshow⟩⟩
    · exact .inr ⟨.inl hused, fun p hshow => hnone p (.inl (hread ▸ hshown hshow))⟩
  · rintro b ⟨hb, hp⟩ (hused | ⟨-, hnot⟩)
    · exact ht.apart b hb hused
    · exact hnot hp
  · have howns := ht.owns
    have hset : later ∩ isPage ∪ (K.used ∪ later \ isPage) = later ∪ K.used := by
      rw [Set.union_comm K.used, ← Set.union_assoc, Set.inter_union_sdiff]
    rw [Rest.leftover, hset]
    exact howns
  · exact fun _ b p hp => h.sound hsound b p (.inl (hshown hp))
  · intro ref n hn
    obtain ⟨hmem, p, hp, -, hlive, hslot, hnode, hnodes⟩ := h.page_of_node hn
    rw [← hsettled] at hp
    have hat := hnodes (refSlot ref) (refSlot_lt ref)
    rw [makeRef_eq, hn] at hat
    dsimp only
    rw [if_pos (ht.floor hmem), hp]
    exact hat.symm

theorem Holds.withFloor {pages floor : Set ℕ} {H : Heap} (h : Holds g K pages H s)
    (hfloor : floor ⊆ pages) : Holds g { K with floor := floor } pages H s :=
  ⟨h.page, h.outside, h.pool, h.apart, hfloor, h.owns, h.sound, h.tidy, h.running⟩

/-- Every page is well-formed, also one that was given up, and none has to stay. -/
structure Rest.Settled (K : Rest) : Prop where
  floor : K.floor = ∅
  sound : K.sound

/-- An operation can be started so that the directories hold the same maps if it fails. -/
theorem Hold.guarded {s : Dirs} {m : Maps} (h : Hold g K F s m) (hK : K.Settled) :
    ∃ K₁ : Rest, K₁.exact = K.exact ∧ F.Tries g K₁ s.store.abort ∧
      (∀ (F' : Forest) t, F'.Tries g K₁ t → F'.Tries g K t) ∧
      ∀ t, t.blocks.read = s.store.blocks.read → (∃ pages H, Holds g K₁ pages H t) →
        ∃ K' : Rest, K'.Settled ∧ K'.exact = K.exact ∧ Hold g K' F { s with store := t.abort } m := by
  obtain ⟨⟨hok, pages, H, hh, hin, hcovers⟩, hfull, hroot⟩ := h.begun
  refine ⟨{ K with floor := pages }, rfl,
    ⟨⟨hok, pages, H, hh.withFloor subset_rfl, hin, hcovers⟩, hfull, hroot⟩, ?_, ?_⟩
  · rintro F' t ⟨⟨hok', pages', H', hh', hin', hcovers'⟩, hfull', hroot'⟩
    have hempty : K.floor ⊆ pages' := by rw [hK.floor]; exact Set.empty_subset _
    exact ⟨⟨hok', pages', H', hh'.withFloor hempty, hin', hcovers'⟩, hfull', hroot'⟩
  · rintro t hread ⟨pages', H', ht⟩
    obtain ⟨blocks, pages'', H'', hholds, hkeep⟩ := hh.aborted rfl hK.sound ht hread
    refine ⟨K.leftover H blocks, ⟨rfl, hK.sound⟩, rfl,
      ⟨⟨hok, pages'', H'', hholds, fun x r hx => ?_, fun r _ => ?_⟩, hfull, hroot⟩,
      h.root, h.entry, rfl⟩
    · obtain ⟨n, hn, hfit⟩ := hin x r hx
      exact ⟨n, hkeep r n hn, hfit⟩
    · cases hr : H r with
      | none => exact .inl (.inr hr)
      | some n => exact (hcovers r (by simp [hr])).imp .inl id

end Abort

section Runs

/-- The maps after a request was answered: what was done counts, and the empty name is never
stored. -/
def Maps.commit (m : Maps) (c : Request) (a : Answer) : Maps :=
  if a = .done ∧ c.name ≠ [] then (m.step c).2 else m

def Maps.commits : Maps → List Request → List Answer → Maps
  | m, c :: cs, a :: as => (m.commit c a).commits cs as
  | m, _, _ => m

variable {s : Dirs} {m : Maps} {d : ℕ} {name : Bytes} {ino ftype : ℕ}

/-- The answer is no error. -/
def Answer.Good (a : Answer) : Prop := ∀ e, a ≠ .failed e

instance : DecidablePred Answer.Good
  | .done => .isTrue (by simp [Answer.Good])
  | .found _ _ => .isTrue (by simp [Answer.Good])
  | .missing => .isTrue (by simp [Answer.Good])
  | .failed e => .isFalse fun h => h e rfl

/-- After a request the directories hold the maps it leads to. Only a request that failed leaves
something behind. -/
def Follows (g : Geometry) (K : Rest) (s : Dirs) (m : Maps) (c : Request) : Prop :=
  ∃ (K' : Rest) (F' : Forest), K'.Settled ∧ K'.exact = K.exact ∧ ((s.step g c).1.Good → K' = K) ∧
    Hold g K' F' (s.step g c).2 (m.commit c (s.step g c).1)

theorem Maps.step_of_ne_done {c : Request} (h : (m.step c).1 ≠ .done) : (m.step c).2 = m := by
  cases c with
  | lookup d name =>
    simp only [Maps.step]
    split <;> rfl
  | insert d name ino ftype =>
    simp only [Maps.step] at h ⊢
    split_ifs at h ⊢ with hmem
    · rfl
    · exact absurd rfl h
  | remove d name =>
    simp only [Maps.step] at h ⊢
    split_ifs at h ⊢ with hmem
    · exact absurd rfl h
    · rfl
  | update d name ino ftype =>
    simp only [Maps.step] at h ⊢
    split_ifs at h ⊢ with hmem
    · exact absurd rfl h
    · rfl

theorem Agree.follows {c : Request} (h : Agree g K s m c) (hK : K.Settled)
    (hname : c.name = [] → (m.step c).1 ≠ .done) : Follows g K s m c := by
  obtain ⟨hanswer, F', hF'⟩ := h
  refine ⟨K, F', hK, rfl, fun _ => rfl, ?_⟩
  rw [Maps.commit, hanswer]
  split_ifs with hdone
  · exact hF'
  · have hne : (m.step c).1 ≠ .done := fun heq => by
      by_cases hnil : c.name = []
      · exact hname hnil heq
      · exact hdone ⟨heq, hnil⟩
    rwa [Maps.step_of_ne_done hne] at hF'

theorem Hold.empty_notMem (h : Hold g K F s m) (d : ℕ) : [] ∉ m d := by
  rw [h.mem_iff]
  simp [h.tries.root d]

theorem Follows.of_failed {c : Request} {e : Err} {K' : Rest} {F' : Forest} {t : Store}
    (hstep : s.step g c = (.failed e, { s with store := t })) (hK' : K'.Settled)
    (hexact : K'.exact = K.exact) (h : Hold g K' F' { s with store := t } m) :
    Follows g K s m c := by
  refine ⟨K', F', hK', hexact, fun hgood => absurd (congrArg Prod.fst hstep) (hgood e), ?_⟩
  rw [hstep, Maps.commit, if_neg (by simp)]
  exact h

theorem Hold.insertNil (h : Hold g K F s m) (hK : K.Settled) :
    Follows g K s m (.insert d [] ino ftype) := by
  obtain ⟨K₁, -, hstart, hback, hfail⟩ := h.guarded hK
  rcases (Forest.post_trieInsert_nil hstart d ino ftype).cases with
    ⟨root, t, hrun, F', hF', hroot, hentry, hrefs⟩ | ⟨e, t, hrun, hstuck⟩
  · have hF'' := hback F' t hF'
    have hstep : s.step g (.insert d [] ino ftype) = (.done,
        { store := { t with blocks := t.blocks.merge }
          root := Function.update s.root d root }) := by
      simp only [Dirs.step, Dirs.operation, h.root, hrun]
    refine ⟨K, F', hK, rfl, fun _ => rfl, ?_⟩
    rw [hstep, Maps.commit, if_neg fun hand => hand.2 rfl]
    refine ⟨hF''.congr hF''.tidy.view_merge (.inr rfl) (Layered.Tidy.merge _), fun d' => ?_,
      fun d' name => by rw [h.entry, hentry], rfl⟩
    by_cases hd : d' = d
    · subst hd
      exact (Function.update_self _ _ _).trans hroot.symm
    · rw [hrefs d' hd, ← h.root]
      exact Function.update_of_ne hd _ _
  · have hread := congrArg (fun r => r.2.blocks.read) hrun
    rw [read_run] at hread
    obtain ⟨K', hK', hexact, hhold⟩ := hfail t hread.symm hstuck.2.2
    refine .of_failed (e := e) (t := t.abort) ?_ hK' hexact hhold
    simp only [Dirs.step, Dirs.operation, h.root, hrun]

theorem Hold.insertLong (h : Hold g K F s m) (hK : K.Settled) (hlong : maxNameLen < name.length) :
    Follows g K s m (.insert d name ino ftype) := by
  rcases (Forest.post_trieInsert_long (g := g) s.store.abort (s.root d) ino ftype hlong).cases with ⟨-, -, -, hfalse⟩ | ⟨e, t, hrun, ht⟩
  · exact hfalse.elim
  · refine .of_failed (e := e) (t := t.abort) ?_ hK rfl (h.aborted (by rw [ht]))
    simp only [Dirs.step, Dirs.operation, hrun]

theorem Hold.insertName (h : Hold g K F s m) (hK : K.Settled) (hname : name ≠ [])
    (hmax : name.length ≤ maxNameLen) : Follows g K s m (.insert d name ino ftype) := by
  obtain ⟨K₁, -, hstart, hback, hfail⟩ := h.guarded hK
  rcases (Forest.post_trieInsert hstart d ino ftype hname hmax).cases with
    ⟨root, t, hrun, hnone, F', hF', hroot, hchanged⟩ | ⟨e, t, hrun, he⟩
  · have hstep : s.step g (.insert d name ino ftype) = (.done,
        { store := { t with blocks := t.blocks.merge }
          root := Function.update s.root d root }) := by
      simp only [Dirs.step, Dirs.operation, h.root, hrun]
    refine ⟨K, F', hK, rfl, fun _ => rfl, ?_⟩
    rw [hstep, Maps.commit, if_pos ⟨rfl, hname⟩, Maps.step,
      if_neg (by rw [h.mem_iff, hnone]; simp)]
    refine h.merged (hback F' t hF') hroot hchanged (Finmap.lookup_insert _) fun name' hne => ?_
    exact Finmap.lookup_insert_of_ne _ hne
  · have hstep : s.step g (.insert d name ino ftype) = (.failed e, { s with store := t.abort }) := by
      simp only [Dirs.step, Dirs.operation, h.root, hrun]
    have hread := congrArg (fun r => r.2.blocks.read) hrun
    rw [read_run] at hread
    have hlost : (∃ pages H, Holds g K₁ pages H t) → Follows g K s m (.insert d name ino ftype) := by
      intro hholds
      obtain ⟨K', hK', hexact, hhold⟩ := hfail t hread.symm hholds
      exact .of_failed hstep hK' hexact hhold
    cases he with
    | stuck hstuck => exact hlost hstuck.2.2
    | full _ _ hholds => exact hlost hholds
    | taken _ _ hsame => exact .of_failed hstep hK rfl (h.aborted hsame.abort)

theorem Hold.follows (h : Hold g K F s m) (hK : K.Settled) (c : Request) : Follows g K s m c := by
  cases c with
  | insert d name ino ftype =>
    by_cases hname : name = []
    · exact hname ▸ h.insertNil hK
    · by_cases hmax : name.length ≤ maxNameLen
      · exact h.insertName hK hname hmax
      · exact h.insertLong hK (Nat.lt_of_not_le hmax)
  | remove d name =>
    refine (h.remove hK.floor).follows hK fun hnil => ?_
    have hnil : name = [] := hnil
    simp [Maps.step, hnil, h.empty_notMem d]
  | update d name ino ftype =>
    refine h.update.follows hK fun hnil => ?_
    have hnil : name = [] := hnil
    simp [Maps.step, hnil, h.empty_notMem d]
  | lookup d name =>
    refine (h.find d name).follows hK fun _ => ?_
    simp only [Maps.step]
    split <;> simp

/-- After any requests the directories hold what those that were done put there. -/
theorem Hold.runs (h : Hold g K F s m) (hK : K.Settled) (requests : List Request) :
    ∃ (K' : Rest) (F' : Forest), K'.Settled ∧ K'.exact = K.exact ∧
      ((∀ a ∈ (s.run g requests).1, a.Good) → K' = K) ∧
      Hold g K' F' (s.run g requests).2 (m.commits requests (s.run g requests).1) := by
  induction requests generalizing s m F K with
  | nil => exact ⟨K, F, hK, rfl, fun _ => rfl, h⟩
  | cons c requests ih =>
    obtain ⟨K', F', hK', hexact, hsame, h'⟩ := h.follows hK c
    obtain ⟨K'', F'', hK'', hexact', hsame', h''⟩ := ih h' hK'
    refine ⟨K'', F'', hK'', hexact'.trans hexact, fun hgood => ?_, h''⟩
    rw [hsame' fun a ha => hgood a (List.mem_cons_of_mem _ ha), hsame (hgood _ List.mem_cons_self)]

end Runs

def Dirs.empty (s : Store) : Dirs where
  store := s
  root := fun _ => 0

/-- A store on which no block is a trie page. -/
structure Fresh (g : Geometry) (s : Store) : Prop extends Unused g s where
  pages : ∀ block p, s.blocks.read block ≠ .page p

/-- A store whose data allocator is consistent and never hands out its first block. -/
structure Ready (g : Geometry) (s : Store) : Prop extends Fresh g s where
  whole : s.dataAlloc.bitmap.Whole
  reserved : s.dataAlloc.isFree 0 = false

/-- What the store has besides the tries when they are all empty. -/
def Rest.initial (g : Geometry) (s : Store) (exact : Prop) : Rest where
  used := g.taken s.dataAlloc
  sound := True
  exact := exact

theorem Fresh.runs (h : Fresh g s) (exact : Prop)
    (hexact : exact → s.dataAlloc.bitmap.Whole ∧ s.dataAlloc.isFree 0 = false)
    (requests : List Request) :
    ∃ (K : Rest) (F : Forest), K.Settled ∧ K.exact = exact ∧
      ((∀ a ∈ ((Dirs.empty s).run g requests).1, a.Good) → K = .initial g s exact) ∧
      Hold g K F ((Dirs.empty s).run g requests).2
        (Maps.commits (fun _ => ∅) requests ((Dirs.empty s).run g requests).1) :=
  (h.hold (K := .initial g s exact) rfl rfl hexact fun _ => h.pages).runs ⟨rfl, trivial⟩ requests

end Briefs.Trie
