import Briefs.Trie.Remove
import Briefs.Trie.Walk
import Mathlib.Data.Finmap

/-!
# A directory trie is a map

Requests to any number of directories whose tries share the trie pages, each change in an
operation of its own. They are answered as one finite map per directory answers them.
-/

namespace Briefs.Trie

open Lib Lib.Program

section Lookup

namespace Forest

variable {F : Forest} {g : Geometry} {K : Rest} {pages : Set ℕ} {H : Heap} {s : Store} {x : Pos}
  {b : UInt8} {ref : Ref} {n : Node} {name : Bytes}

theorem post_trieReadNode (hh : Holds g K pages H s) (hread : s.blocks.read = s.blocks.view)
    (hn : H ref = some n) :
    Post (Store.exec g) (trieReadNode ref)
      (fun r t => t = s ∧ r.1.Ok ∧ r.1.NameOk r.2 ∧ r.2 = n.slot ∧ r.1.node r.2 = n) never s := by
  obtain ⟨-, p, hview, hok, hlive, hslot, hnode, -⟩ := hh.page_of_node hn
  have hexec : Store.exec g (.readBlock (refBlock ref)) s = (.ok (.page p), s) := by
    simp [Store.exec, hread, hview, Content.readable]
  unfold trieReadNode readBlock perform
  rw [post_bind, post_context, post_bind, post_cmd, hexec]
  exact ⟨rfl, hok, hok.name _ hlive, hslot, by rw [hslot, hnode]⟩

theorem post_trieFindChildRead (hh : Holds g K pages H s) (hread : s.blocks.read = s.blocks.view)
    (hin : F.In ∅ H) (h : F.Ok) (hx : (F.node x).isSome) :
    Post (Store.exec g) (trieFindChildRead (F.ref x) b)
      (fun r t => t = s ∧ (r = 0 ∧ b ∉ F.kids x ∨ r = F.ref (child x b) ∧ b ∈ F.kids x)) never s := by
  obtain ⟨-, n, hn, hfit⟩ := hin.self hx
  refine (post_trieReadNode hh hread hn).andThen fun r t hpost => ?_
  obtain ⟨ht, -, -, hslot, -⟩ := hpost
  subst ht
  dsimp only
  rw [hslot, hfit.firstChild, show (0 : Ref) = F.last x [] from rfl]
  refine Post.andThen (post_trieScanSiblings (I := fun u => u = t) (fun ref n u hn hu => ?_) hin h _ _
    _ _ rfl (by simp) ?_ rfl) fun r u hpost => ⟨hpost.2, ?_⟩
  · subst hu
    refine (post_trieReadNode hh hread hn).andThen fun r v hpost => ?_
    exact ⟨hpost.2.2.2.1, hpost.1⟩
  · exact (h.length_kids_le x).trans (by unfold trieSiblingMax; omega)
  · rcases hpost.1 with ⟨hr, hb⟩ | ⟨pre, post, hkids, rfl⟩
    · exact .inl ⟨hr, hb⟩
    · exact .inr ⟨rfl, by simp [hkids]⟩

/-- The errors of a lookup that finds nothing. -/
def NotFound (e : Err) : Prop := e = .text "not found" ∨ e = .text "no trie root"

/-- What a lookup of the entry at `y` may return. -/
def Looked (F : Forest) (y : Pos) (s : Store) (e : ℕ × ℕ) (t : Store) : Prop :=
  t = s ∧ F.entry y = some e

/-- How a lookup of the entry at `y` may fail. -/
def Unfound (F : Forest) (y : Pos) (s : Store) (e : Err) (t : Store) : Prop :=
  t = s ∧ NotFound e ∧ F.entry y = none

/-- The name in the node of an entry is its path. -/
theorem post_matchLeaf {p : TriePage} {c : Ref} (hfit : F.Fits ∅ (child x b) n) (h : F.Ok)
    (hb : b ∈ F.kids x) (hentry : (F.entry (child x b)).isSome) (hpage : p.Ok)
    (hname : p.NameOk n.slot) (hnode : p.node n.slot = n) {Q : ℕ × ℕ → Store → Prop}
    {E : Err → Store → Prop}
    (hmatch : (child x b).2.reverse = name → Q (n.slot.inode, n.slot.ftype) s)
    (hmiss : (child x b).2.reverse ≠ name → E (.text "not found") s) :
    Post (Store.exec g) (matchLeaf c p n.slot name) Q E s := by
  have hread : p.readName n.slot.nameLen n.slot.nameOffset = .ok (child x b).2.reverse := by
    refine hpage.readName hname (by simp [child]) ?_ (by rw [hnode, hfit.area_of_entry hentry])
    simpa using h.depth _ ((h.kids x b).mp hb)
  unfold matchLeaf
  rw [hread, post_bind, post_context]
  exact post_ite.mpr ⟨hmatch, hmiss⟩

/-- The loop of `TrieLookup`, from the node at `x` on. -/
theorem post_lookupAt (hrep : Rep g K F ∅ s) (hread : s.blocks.read = s.blocks.view) (rest : Bytes)
    (hrest : rest ≠ []) (hname : name.reverse = rest.reverse ++ x.2) (hx : (F.node x).isSome) :
    Post (Store.exec g) (lookupAt name rest (F.ref x)) (Looked F (x.1, name.reverse) s)
      (Unfound F (x.1, name.reverse) s) s := by
  obtain ⟨h, pages, H, hh, hin, -⟩ := hrep
  induction rest generalizing x with
  | nil => exact absurd rfl hrest
  | cons b rest ih =>
    have hname' : name.reverse = rest.reverse ++ b :: x.2 := by simpa using hname
    unfold lookupAt
    refine (post_trieFindChildRead hh hread hin h hx).andThen fun r t hpost => ?_
    obtain ⟨ht, hr⟩ := hpost
    subst ht
    rcases hr with ⟨rfl, hb⟩ | ⟨rfl, hb⟩
    · rw [if_pos rfl]
      exact ⟨rfl, .inl rfl, by rw [hname', h.entry_below hb]⟩
    · have hnode := h.node_child hb
      obtain ⟨n, hn, hfit⟩ := hin _ _ hnode.1
      rw [if_neg hnode.2]
      refine (post_trieReadNode hh hread hn).andThen fun q u hpost => ?_
      obtain ⟨hu, hpage, hnameOk, hq, hqn⟩ := hpost
      subst hu
      dsimp only
      rw [hq] at hnameOk hqn ⊢
      cases rest with
      | nil =>
        rw [if_pos rfl, hfit.isLeaf h, show (x.1, name.reverse) = child x b by rw [hname]; rfl]
        refine post_ite.mpr ⟨fun hentry => ?_, fun hentry => ⟨rfl, .inl rfl, by simpa using hentry⟩⟩
        refine post_matchLeaf hfit h hb hentry hpage hnameOk hqn (fun _ => ⟨rfl, ?_⟩) fun hne => ?_
        · obtain ⟨e, he⟩ := Option.isSome_iff_exists.mp hentry
          rw [he, hfit.entry e he]
        · exact absurd (path_eq hname') hne
      | cons c rest =>
        rw [if_neg (by simp), hfit.isInterm]
        cases hleafb : F.leaf (child x b) with
        | false =>
          rw [if_pos (by simp)]
          exact ih (x := child x b) (by simp) (by simpa [child] using hname') ((h.kids x b).mp hb)
        | true =>
          rw [if_neg (by simp)]
          refine post_matchLeaf hfit h hb (h.leaf _ hleafb) hpage hnameOk hqn (fun heq => ?_) fun _ =>
            ⟨rfl, .inl rfl, ?_⟩
          · have := congrArg List.length hname'
            rw [← heq] at this
            simp [child] at this
            omega
          · have hc : c ∉ F.kids (child x b) := by simp [h.leaf_kids hleafb]
            have := h.entry_below hc rest.reverse
            simpa [child, hname] using this

theorem post_trieLookup (h : Tries g K F s) (hread : s.blocks.read = s.blocks.view) (d : ℕ)
    (name : Bytes) :
    Post (Store.exec g) (trieLookup (F.ref (d, [])) name) (Looked F (d, name.reverse) s)
      (Unfound F (d, name.reverse) s) s := by
  unfold trieLookup
  refine post_ite.mpr ⟨fun hzero => ⟨rfl, .inr rfl, ?_⟩, fun hroot => ?_⟩
  · exact h.ok.entry_of_no_root (h.ok.ref_eq_zero.mp hzero) _
  · cases name with
    | nil => exact ⟨rfl, .inl rfl, h.root d⟩
    | cons b name =>
      exact post_lookupAt (x := (d, [])) h.rep hread (b :: name) (by simp) (by simp)
        (Option.isSome_iff_ne_none.mpr fun hnone => hroot (h.ok.ref_eq_zero.mpr hnone))

end Forest

end Lookup

section Requests

/-- The calls on the trie of a directory. -/
inductive Request
  | insert (d : ℕ) (name : Bytes) (ino ftype : ℕ)
  | remove (d : ℕ) (name : Bytes)
  | update (d : ℕ) (name : Bytes) (ino ftype : ℕ)
  | lookup (d : ℕ) (name : Bytes)
  deriving DecidableEq

def Request.name : Request → Bytes
  | .insert _ name _ _ | .remove _ name | .update _ name _ _ | .lookup _ name => name

inductive Answer
  | done
  | found (ino ftype : ℕ)
  | missing
  | failed (e : Err)
  deriving DecidableEq

/-- The directories: the store their tries are in, and the roots their inodes have. -/
structure Dirs where
  store : Store
  root : ℕ → Ref

namespace Dirs

variable (g : Geometry) (s : Dirs)

/-- An operation that changes the trie of the directory `d`. The cache it starts with is
empty; it is merged if the call succeeds and dropped if not. -/
def operation (d : ℕ) (p : Prog Ref) : Answer × Dirs :=
  match p.run (Store.exec g) s.store.abort with
  | (.ok root, t) =>
    (.done, { store := { t with blocks := t.blocks.merge }, root := Function.update s.root d root })
  | (.error e, t) => (.failed e, { s with store := t.abort })

def find (d : ℕ) (name : Bytes) : Answer × Dirs :=
  match (trieLookup (s.root d) name).run (Store.exec g) s.store with
  | (.ok e, t) => (.found e.1 e.2, { s with store := t })
  | (.error e, t) =>
    (if e = .text "not found" ∨ e = .text "no trie root" then .missing else .failed e,
      { s with store := t })

def step : Request → Answer × Dirs
  | .insert d name ino ftype => s.operation g d (trieInsert g (s.root d) name ino ftype)
  | .remove d name => s.operation g d (trieRemove (s.root d) name)
  | .update d name ino ftype => s.operation g d do
      trieUpdateEntry (s.root d) name ino ftype
      return s.root d
  | .lookup d name => s.find g d name

def run : Dirs → List Request → List Answer × Dirs
  | s, [] => ([], s)
  | s, c :: cs =>
    let (a, s) := s.step g c
    let (as, s) := run s cs
    (a :: as, s)

end Dirs

abbrev Maps := ℕ → Finmap fun _ : Bytes => ℕ × ℕ

namespace Maps

variable (m : Maps)

def step : Request → Answer × Maps
  | .insert d name ino ftype =>
    if name ∈ m d then (.failed (.errno .eexist), m)
    else (.done, Function.update m d ((m d).insert name (ino, ftype)))
  | .remove d name =>
    if name ∈ m d then (.done, Function.update m d ((m d).erase name))
    else (.failed (.errno .enoent), m)
  | .update d name ino ftype =>
    if name ∈ m d then (.done, Function.update m d ((m d).insert name (ino, ftype)))
    else (.failed (.errno .enoent), m)
  | .lookup d name =>
    match (m d).lookup name with
    | some e => (.found e.1 e.2, m)
    | none => (.missing, m)

def run : Maps → List Request → List Answer × Maps
  | m, [] => ([], m)
  | m, c :: cs =>
    let (a, m) := m.step c
    let (as, m) := run m cs
    (a :: as, m)

end Maps

end Requests

section Refinement

variable {g : Geometry} {K : Rest} {s : Dirs} {m : Maps} {F : Forest} {t : Store}
  {f : Finmap fun _ : Bytes => ℕ × ℕ} {name : Bytes}

/-- Between operations the directories hold the maps. -/
structure Hold (g : Geometry) (K : Rest) (F : Forest) (s : Dirs) (m : Maps) : Prop where
  tries : F.Tries g K s.store
  root : ∀ d, s.root d = F.ref (d, [])
  entry : ∀ d name, (m d).lookup name = F.entry (d, name.reverse)
  settled : s.store.blocks.read = s.store.blocks.view

theorem Forest.Tries.congr (h : F.Tries g K t) {blocks : Layered ℕ Content}
    (hview : blocks.view = t.blocks.view)
    (hread : blocks.read = t.blocks.read ∨ blocks.read = blocks.view) (htidy : blocks.Tidy) :
    F.Tries g K { t with blocks := blocks } := by
  obtain ⟨⟨hok, pages, H, hh, hin⟩, hfull, hroot⟩ := h
  exact ⟨⟨hok, pages, H, hh.congr hview hread htidy rfl rfl rfl rfl, hin⟩, hfull, hroot⟩

theorem Forest.Tries.tidy (h : F.Tries g K t) : t.blocks.Tidy := by
  obtain ⟨⟨-, pages, H, hh, -⟩, -⟩ := h
  exact hh.tidy

theorem Hold.begun (h : Hold g K F s m) : F.Tries g K s.store.abort :=
  h.tries.congr h.settled (.inl rfl) (Layered.Tidy.clear _)

theorem Hold.aborted (h : Hold g K F s m) (ht : t.abort = s.store.abort.abort) :
    Hold g K F { s with store := t.abort } m := by
  rw [ht]
  exact ⟨h.begun, h.root, h.entry, rfl⟩

theorem lookup_update (hentry : ∀ d name, (m d).lookup name = F.entry (d, name.reverse))
    {d : ℕ} {e : Option (ℕ × ℕ)}
    (hself : f.lookup name = e) (hothers : ∀ name', name' ≠ name → f.lookup name' = (m d).lookup name')
    (d' : ℕ) (name' : Bytes) :
    (Function.update m d f d').lookup name' =
      Function.update F.entry (d, name.reverse) e (d', name'.reverse) := by
  by_cases hd : d' = d
  · subst hd
    by_cases hn : name' = name
    · subst hn
      rw [Function.update_self, Function.update_self, hself]
    · rw [Function.update_self, hothers name' hn, hentry, Function.update_of_ne]
      simpa using hn
  · rw [Function.update_of_ne hd, hentry, Function.update_of_ne]
    simp [hd]

theorem Hold.merged (h : Hold g K F s m) {F' : Forest} {d : ℕ} {e : Option (ℕ × ℕ)}
    {root : Ref} (htries : F'.Tries g K t)
    (hroot : F'.ref (d, []) = root) (hchanged : Forest.Changed F F' (d, name.reverse) e)
    (hself : f.lookup name = e)
    (hothers : ∀ name', name' ≠ name → f.lookup name' = (m d).lookup name') :
    Hold g K F' { store := { t with blocks := t.blocks.merge }, root := Function.update s.root d root }
      (Function.update m d f) := by
  refine ⟨htries.congr htries.tidy.view_merge (.inr rfl) (Layered.Tidy.merge _), fun d' => ?_,
    fun d' name' => ?_, rfl⟩
  · by_cases hd : d' = d
    · subst hd
      exact (Function.update_self _ _ _).trans hroot.symm
    · rw [hchanged.root d' hd, ← h.root]
      exact Function.update_of_ne hd _ _
  · rw [hchanged.entry]
    exact lookup_update h.entry hself hothers d' name'

theorem Hold.mem_iff (h : Hold g K F s m) {d : ℕ} :
    name ∈ m d ↔ (F.entry (d, name.reverse)).isSome := by
  rw [← h.entry, Finmap.lookup_isSome]

section Step

variable {d : ℕ} {name : Bytes} {ino ftype : ℕ}

/-- A request is answered as the maps answer it. -/
def Agree (g : Geometry) (K : Rest) (s : Dirs) (m : Maps) (c : Request) : Prop :=
  (s.step g c).1 = (m.step c).1 ∧ ∃ F, Hold g K F (s.step g c).2 (m.step c).2

theorem Hold.insert (h : Hold g K F s m) (hname : name ≠ []) (hmax : name.length ≤ maxNameLen)
    (hspace : (s.step g (.insert d name ino ftype)).1 ≠ .failed (.errno .enospc)) :
    Agree g K s m (.insert d name ino ftype) := by
  simp only [Agree, Dirs.step, Dirs.operation, Maps.step, h.root] at hspace ⊢
  rcases (Forest.post_trieInsert h.begun d ino ftype hname hmax).cases with
    ⟨root, t, hrun, hnone, F', hF', hroot, hchanged⟩ | ⟨e, t, hrun, he⟩
  · rw [hrun, if_neg (by rw [h.mem_iff, hnone]; simp)]
    refine ⟨rfl, F', h.merged hF' hroot hchanged (Finmap.lookup_insert _) fun name' hne => ?_⟩
    exact Finmap.lookup_insert_of_ne _ hne
  · rw [hrun] at hspace ⊢
    cases he with
    | stuck hstuck => exact absurd (by rw [hstuck.1]) hspace
    | full => exact absurd rfl hspace
    | taken hsome _ hsame =>
      rw [if_pos (h.mem_iff.mpr hsome)]
      exact ⟨rfl, F, h.aborted hsame.abort⟩

theorem Hold.remove (h : Hold g K F s m) (hfloor : K.floor = ∅) :
    Agree g K s m (.remove d name) := by
  simp only [Agree, Dirs.step, Dirs.operation, Maps.step, h.root]
  rcases (Forest.post_trieRemove (d := d) h.begun hfloor).cases with
    ⟨root, t, hrun, hsome, F', hF', hroot, hchanged, -⟩ | ⟨e, t, hrun, rfl, hnone, -, hsame⟩
  · rw [hrun, if_pos (h.mem_iff.mpr hsome)]
    refine ⟨rfl, F', h.merged hF' hroot hchanged (Finmap.lookup_erase _ _) fun name' hne => ?_⟩
    exact Finmap.lookup_erase_ne hne
  · rw [hrun, if_neg (by rw [h.mem_iff, hnone]; simp)]
    exact ⟨rfl, F, h.aborted hsame.abort⟩

theorem Hold.update (h : Hold g K F s m) : Agree g K s m (.update d name ino ftype) := by
  simp only [Agree, Dirs.step, Dirs.operation, Maps.step, h.root]
  have hpost : Post (Store.exec g)
      (trieUpdateEntry (F.ref (d, [])) name ino ftype >>= fun _ => pure (F.ref (d, [])))
      (fun root t => (F.entry (d, name.reverse)).isSome ∧ ∃ F', Forest.Tries g K F' t ∧
        F'.ref (d, []) = root ∧ Forest.Changed F F' (d, name.reverse) (some (ino, ftype)))
      (Forest.NoEntry g K F (d, name.reverse) s.store.abort) s.store.abort :=
    (Forest.post_trieUpdateEntry h.begun).bind (fun _ _ he => he) fun _ _ hQ => hQ
  rcases hpost.cases with
    ⟨root, t, hrun, hsome, F', hF', hroot, hchanged⟩ | ⟨e, t, hrun, rfl, hnone, -, hsame⟩
  · rw [hrun, if_pos (h.mem_iff.mpr hsome)]
    refine ⟨rfl, F', h.merged hF' hroot hchanged (Finmap.lookup_insert _) fun name' hne => ?_⟩
    exact Finmap.lookup_insert_of_ne _ hne
  · rw [hrun, if_neg (by rw [h.mem_iff, hnone]; simp)]
    exact ⟨rfl, F, h.aborted hsame.abort⟩

theorem Hold.find (h : Hold g K F s m) (d : ℕ) (name : Bytes) : Agree g K s m (.lookup d name) := by
  simp only [Agree, Dirs.step, Dirs.find, Maps.step, h.root]
  rcases (Forest.post_trieLookup h.tries h.settled d name).cases with
    ⟨e, t, hrun, rfl, hsome⟩ | ⟨e, t, hrun, rfl, hmissing, hnone⟩
  · rw [hrun, h.entry, hsome]
    exact ⟨rfl, F, h⟩
  · rw [hrun, h.entry, hnone]
    exact ⟨if_pos hmissing, F, h⟩

theorem Hold.step (h : Hold g K F s m) (hfloor : K.floor = ∅) (c : Request) (hname : c.name ≠ [])
    (hmax : c.name.length ≤ maxNameLen) (hspace : (s.step g c).1 ≠ .failed (.errno .enospc)) :
    Agree g K s m c := by
  cases c with
  | insert d name ino ftype => exact h.insert hname hmax hspace
  | remove d name => exact h.remove hfloor
  | update d name ino ftype => exact h.update
  | lookup d name => exact h.find d name

end Step

theorem Hold.run (h : Hold g K F s m) (hfloor : K.floor = ∅) (requests : List Request)
    (hnames : ∀ c ∈ requests, c.name ≠ [] ∧ c.name.length ≤ maxNameLen)
    (hspace : .failed (.errno .enospc) ∉ (s.run g requests).1) :
    (s.run g requests).1 = (m.run requests).1 ∧
      ∃ F', Hold g K F' (s.run g requests).2 (m.run requests).2 := by
  induction requests generalizing s m F with
  | nil => exact ⟨rfl, F, h⟩
  | cons c requests ih =>
    simp only [Dirs.run, Maps.run, List.mem_cons, not_or] at hspace ⊢
    obtain ⟨hname, hmax⟩ := hnames c List.mem_cons_self
    obtain ⟨hanswer, F', hF'⟩ := h.step hfloor c hname hmax (Ne.symm hspace.1)
    obtain ⟨hanswers, hlast⟩ := ih hF' (fun c hc => hnames c (List.mem_cons_of_mem _ hc)) hspace.2
    exact ⟨by rw [hanswer, hanswers], hlast⟩

/-- A store without a trie page and without an operation under way, in a data region whose
block numbers fit. -/
structure Unused (g : Geometry) (s : Store) : Prop where
  partials : s.triePartials = []
  pending : s.pendingFrees.blocks = []
  running : s.inReplay = false
  idle : s.abort = s
  fits : g.dataRegionStart + s.dataAlloc.bitmap.blockCount ≤ 2 ^ 64

def Forest.empty : Forest where
  node := fun _ => none
  kids := fun _ => []
  entry := fun _ => none
  leaf := fun _ => false

/-- The data blocks that are allocated. -/
def Geometry.taken (g : Geometry) (a : Alloc.Allocator) : Set ℕ :=
  { block | ∃ rel, block = g.dataRegionStart + rel ∧ 0 < rel ∧ rel < a.bitmap.blockCount ∧
    a.isFree rel = false }

theorem Unused.holds {s : Store} (h : Unused g s) (hused : K.used = g.taken s.dataAlloc)
    (hfloor : K.floor = ∅)
    (hexact : K.exact → s.dataAlloc.bitmap.Whole ∧ s.dataAlloc.isFree 0 = false)
    (hsound : K.sound → ∀ block p, s.blocks.read block ≠ .page p) :
    Holds g K ∅ (fun _ => none) s := by
  have hpending : s.pendingFrees.blocks = [] := h.pending
  refine ⟨by simp, fun _ _ => rfl, by simp [h.partials], by simp, by simp [hfloor],
    ⟨h.fits, by simp [hpending], by simp [hpending], ?_, hexact, ?_⟩, ?_, ?_, h.running⟩
  · rw [Set.empty_union, hused]
    rintro block ⟨rel, hblock, hpos, hlt, hfree⟩
    exact ⟨rel, hblock, hpos, hlt, hfree, by simp [hpending]⟩
  · intro _ rel hpos hlt hfree _
    rw [Set.empty_union, hused]
    exact ⟨rel, rfl, hpos, hlt, hfree⟩
  · intro hs block p hp
    rw [← h.idle] at hp
    exact absurd (hp.elim id id) (h.idle ▸ hsound hs block p)
  · rw [← h.idle]
    exact Layered.Tidy.clear _

theorem Unused.hold {s : Store} (h : Unused g s) (hused : K.used = g.taken s.dataAlloc)
    (hfloor : K.floor = ∅)
    (hexact : K.exact → s.dataAlloc.bitmap.Whole ∧ s.dataAlloc.isFree 0 = false)
    (hsound : K.sound → ∀ block p, s.blocks.read block ≠ .page p) :
    Hold g K .empty { store := s, root := fun _ => 0 } fun _ => ∅ := by
  have hok : Forest.empty.Ok := by constructor <;> simp [Forest.empty]
  refine ⟨⟨⟨hok, ∅, _, h.holds hused hfloor hexact hsound, by simp [Forest.In, Forest.empty],
    by simp [Forest.Covers]⟩, ?_, fun _ => rfl⟩, fun _ => rfl, by simp [Forest.empty], ?_⟩
  · simp [Forest.Full, Forest.empty]
  · rw [← h.idle]
    rfl

/-- Whatever is asked of directories that start empty and share their trie pages, each answer
is that of the maps, and so is what every lookup finds afterwards. -/
theorem dirs_answer_as_maps {g : Geometry} {s : Store} (h : Unused g s) (requests : List Request)
    (hnames : ∀ c ∈ requests, c.name ≠ [] ∧ c.name.length ≤ maxNameLen)
    (hspace : .failed (.errno .enospc) ∉
      (Dirs.run g { store := s, root := fun _ => 0 } requests).1) :
    (Dirs.run g { store := s, root := fun _ => 0 } requests).1 =
        (Maps.run (fun _ => ∅) requests).1 ∧
      ∀ d name, ((Dirs.run g { store := s, root := fun _ => 0 } requests).2.step g
          (.lookup d name)).1 =
        ((Maps.run (fun _ => ∅) requests).2.step (.lookup d name)).1 := by
  have hstart := h.hold (K := { used := g.taken s.dataAlloc }) rfl rfl False.elim False.elim
  obtain ⟨hanswers, F, hF⟩ := hstart.run rfl requests hnames hspace
  exact ⟨hanswers, fun d name => (hF.find d name).1⟩

end Refinement

section Sample

def sampleGeometry : Geometry where
  dataRegionStart := 100
  rootIno := 1
  inodesPerBlock := 8
  journalStart := 200
  journalEnd := 208

/-- Eight data blocks, all but the first free. -/
def samplePool : Alloc.Pyramid where
  l0 := [1]
  l1 := [1]
  l2 := [0xFE]
  blockCount := 8
  freeCount := 7

def sampleStore : Store where
  blocks :=
    { device := fun _ => .raw []
      deferred := fun _ => none
      cache := fun _ => none
      cacheDirty := fun _ => false }
  dataAlloc := .ofPool samplePool
  dataPool := samplePool
  pendingFrees := {}
  triePartials := []
  tape :=
    { ring :=
        { start := 200
          stop := 208
          allocs := true
          writePos := 200
          logStart := 200
          logEnd := 200
          offset := Journal.journalBlockHdrSize
          records := 0
          blocks := 0
          dirty := false
          events := [] }
      cur := []
      writes := []
      commits := 0 }
  inReplay := false
  replayTrieBlocks := []
  drains := 0

/-- Two directories; a leaf that becomes an inner node, and a name whose way is taken away. -/
def sampleRequests : List Request :=
  [.insert 1 [97, 98] 5 8, .insert 2 [97] 6 4, .insert 1 [97, 98, 99] 7 8, .insert 1 [97, 98] 9 8,
    .update 1 [97, 98, 99] 8 8, .remove 1 [97, 98], .lookup 1 [97, 98, 99], .remove 2 [97],
    .remove 2 [97]]

theorem unused_sampleStore : Unused sampleGeometry sampleStore :=
  ⟨rfl, rfl, rfl, rfl, by decide⟩

theorem dirs_answer_sample :
    (Dirs.run sampleGeometry { store := sampleStore, root := fun _ => 0 } sampleRequests).1 =
      [.done, .done, .done, .failed (.errno .eexist), .done, .done, .found 8 8, .done,
        .failed (.errno .enoent)] :=
  (dirs_answer_as_maps unused_sampleStore sampleRequests (by decide) (by decide +kernel)).1.trans
    (by decide +kernel)

end Sample

end Briefs.Trie
