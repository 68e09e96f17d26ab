import Briefs.Lib.Codec

/-!
# POSIX ACLs

`fuse/posix_acl.go`. An ACL is stored as an xattr. The mode of a file and its access ACL say
the same thing twice, and the group bits of the mode stand for the mask of the ACL if it has
one and for the owning group otherwise.
-/

namespace Briefs.Xattr

open Lib

def posixAclVersion : UInt32 := 2
def posixAclEntrySz : ℕ := 8

def aclTagUserObj : UInt16 := 0x01
def aclTagUser : UInt16 := 0x02
def aclTagGroupObj : UInt16 := 0x04
def aclTagGroup : UInt16 := 0x08
def aclTagMask : UInt16 := 0x10
def aclTagOther : UInt16 := 0x20

def sIRWXU : UInt32 := 0o700
def sIRWXG : UInt32 := 0o070
def sIRWXO : UInt32 := 0o007
def sIRWXUGO : UInt32 := sIRWXU ||| sIRWXG ||| sIRWXO

structure PosixAclEntry where
  tag : UInt16
  perm : UInt16
  id : UInt32
  deriving DecidableEq, Repr

section Wire

/-- The tags `decodePosixAcl` lets pass. -/
def aclTags : List UInt16 :=
  [aclTagUserObj, aclTagUser, aclTagGroupObj, aclTagGroup, aclTagMask, aclTagOther]

/-- The loop of `decodePosixAcl`. -/
def decodeEntries : ℕ → Bytes → Option (List PosixAclEntry)
  | 0, _ => some []
  | n + 1, rest =>
    if getUint16 rest ∈ aclTags then do
      let entries ← decodeEntries n (rest.drop posixAclEntrySz)
      return { tag := getUint16 rest
               perm := getUint16 (rest.drop 2)
               id := getUint32 (rest.drop 4) } :: entries
    else none

/-- `decodePosixAcl`. -/
def decodePosixAcl (blob : Bytes) : Option (List PosixAclEntry) :=
  if blob.length < 4 ∨ getUint32 blob ≠ posixAclVersion then none
  else
    let rest := blob.drop 4
    if rest.length % posixAclEntrySz ≠ 0 then none
    else (decodeEntries (rest.length / posixAclEntrySz) rest).filter fun entries =>
      entries.length ≠ 0

def encodeEntry (e : PosixAclEntry) : Bytes :=
  putUint16 e.tag ++ putUint16 e.perm ++ putUint32 e.id

/-- `encodePosixAcl`. -/
def encodePosixAcl (entries : List PosixAclEntry) : Bytes :=
  putUint32 posixAclVersion ++ entries.flatMap encodeEntry

theorem length_flatMap_encodeEntry (entries : List PosixAclEntry) :
    (entries.flatMap encodeEntry).length = posixAclEntrySz * entries.length := by
  induction entries with
  | nil => rfl
  | cons e rest ih =>
    have hentry : (encodeEntry e).length = posixAclEntrySz := rfl
    rw [List.flatMap_cons, List.length_append, ih, hentry, List.length_cons, Nat.mul_succ,
      Nat.add_comm]

theorem decodeEntries_encode (entries : List PosixAclEntry) (h : ∀ e ∈ entries, e.tag ∈ aclTags) :
    decodeEntries entries.length (entries.flatMap encodeEntry) = some entries := by
  induction entries with
  | nil => rfl
  | cons e rest ih =>
    have htag : getUint16 (encodeEntry e ++ rest.flatMap encodeEntry) = e.tag :=
      getUint16_put_append _ _
    have hperm : getUint16 ((encodeEntry e ++ rest.flatMap encodeEntry).drop 2) = e.perm :=
      getUint16_put_append _ _
    have hid : getUint32 ((encodeEntry e ++ rest.flatMap encodeEntry).drop 4) = e.id :=
      getUint32_put_append _ _
    have hdrop : (encodeEntry e ++ rest.flatMap encodeEntry).drop posixAclEntrySz =
        rest.flatMap encodeEntry := rfl
    rw [List.length_cons, List.flatMap_cons, decodeEntries, htag, hperm, hid, hdrop,
      if_pos (h e List.mem_cons_self), ih fun e' he' => h e' (List.mem_cons_of_mem _ he')]
    rfl

theorem decodePosixAcl_encode {entries : List PosixAclEntry} (hne : entries ≠ [])
    (h : ∀ e ∈ entries, e.tag ∈ aclTags) :
    decodePosixAcl (encodePosixAcl entries) = some entries := by
  have hversion : getUint32 (encodePosixAcl entries) = posixAclVersion := getUint32_put_append _ _
  have hdrop : (encodePosixAcl entries).drop 4 = entries.flatMap encodeEntry := rfl
  have hlen : ¬ (encodePosixAcl entries).length < 4 := by
    simp [encodePosixAcl, putUint32]
  unfold decodePosixAcl
  rw [if_neg (not_or.mpr ⟨hlen, not_not.mpr hversion⟩), hdrop]
  dsimp only
  rw [length_flatMap_encodeEntry, Nat.mul_mod_right, if_neg (by simp),
    Nat.mul_div_cancel_left _ (by decide), decodeEntries_encode entries h]
  simp [hne]

end Wire

section Classes

/-- The places of the entries that can stand for the group class. -/
structure GroupClass where
  groupIdx : Option ℕ
  maskIdx : Option ℕ

/-- The mask if there is one, else the owning group. -/
def GroupClass.idx (c : GroupClass) : Option ℕ := c.maskIdx <|> c.groupIdx

/-- What the loop of `createModeFromACL` keeps. -/
structure Masq extends GroupClass where
  m : UInt32

variable (mode : UInt32)

/-- One entry in the loop of `createModeFromACL`. -/
def masqEntry (i : ℕ) (e : PosixAclEntry) (s : Masq) : Option (PosixAclEntry × Masq) :=
  if e.tag = aclTagUserObj then
    let perm := e.perm &&& ((mode >>> 6) ||| ~~~ sIRWXO).toUInt16
    some ({ e with perm := perm }, { s with m := s.m &&& ((perm.toUInt32 <<< 6) ||| ~~~ sIRWXU) })
  else if e.tag = aclTagUser ∨ e.tag = aclTagGroup then some (e, s)
  else if e.tag = aclTagGroupObj then some (e, { s with groupIdx := some i })
  else if e.tag = aclTagOther then
    let perm := e.perm &&& (mode ||| ~~~ sIRWXO).toUInt16
    some ({ e with perm := perm }, { s with m := s.m &&& (perm.toUInt32 ||| ~~~ sIRWXO) })
  else if e.tag = aclTagMask then some (e, { s with maskIdx := some i })
  else none

/-- The loop of `createModeFromACL`. -/
def masqLoop : ℕ → List PosixAclEntry → Masq → List PosixAclEntry × Option Masq
  | _, [], s => ([], some s)
  | i, e :: rest, s =>
    match masqEntry mode i e s with
    | none => (e :: rest, none)
    | some (e, s) =>
      let (rest, r) := masqLoop (i + 1) rest s
      (e :: rest, r)

/-- `createModeFromACL`: the entries as it leaves them, and the mode. -/
def createModeFromACL (entries : List PosixAclEntry) : List PosixAclEntry × Option UInt32 :=
  match masqLoop mode 0 entries { groupIdx := none, maskIdx := none, m := mode } with
  | (entries, none) => (entries, none)
  | (entries, some s) =>
    match s.idx with
    | none => (entries, none)
    | some gi =>
      let entries := entries.modify gi fun e =>
        { e with perm := e.perm &&& ((s.m >>> 3) ||| ~~~ sIRWXO).toUInt16 }
      let perm := ((entries[gi]?).map PosixAclEntry.perm).getD 0
      let m := s.m &&& ((perm.toUInt32 <<< 3) ||| ~~~ sIRWXG)
      (entries, some ((mode &&& ~~~ sIRWXUGO) ||| m))

/-- One entry in the loop of `accessAclMode`. -/
def accessEntry (mode : UInt32) (e : PosixAclEntry) : UInt32 :=
  let perm : UInt32 := (e.perm &&& 0o7).toUInt32
  if e.tag = aclTagUserObj then mode ||| perm <<< 6
  else if e.tag = aclTagGroupObj then mode ||| perm <<< 3
  else if e.tag = aclTagOther then mode ||| perm
  else if e.tag = aclTagMask then (mode &&& ~~~ sIRWXG) ||| perm <<< 3
  else mode

/-- `accessAclMode`. -/
def accessAclMode (entries : List PosixAclEntry) : UInt32 := entries.foldl accessEntry 0

/-- One entry in the loop of `chmodAcl`. -/
def chmodEntry (i : ℕ) (e : PosixAclEntry) (c : GroupClass) : PosixAclEntry × GroupClass :=
  if e.tag = aclTagUserObj then ({ e with perm := ((mode &&& sIRWXU) >>> 6).toUInt16 }, c)
  else if e.tag = aclTagGroupObj then (e, { c with groupIdx := some i })
  else if e.tag = aclTagMask then (e, { c with maskIdx := some i })
  else if e.tag = aclTagOther then ({ e with perm := (mode &&& sIRWXO).toUInt16 }, c)
  else (e, c)

/-- The loop of `chmodAcl`. -/
def chmodLoop : ℕ → List PosixAclEntry → GroupClass → List PosixAclEntry × GroupClass
  | _, [], c => ([], c)
  | i, e :: rest, c =>
    let (e, c) := chmodEntry mode i e c
    let (rest, c) := chmodLoop (i + 1) rest c
    (e :: rest, c)

/-- `chmodAcl`: the entries as it leaves them, and whether it could set the group class. -/
def chmodAcl (entries : List PosixAclEntry) : List PosixAclEntry × Bool :=
  let (entries, c) := chmodLoop mode 0 entries { groupIdx := none, maskIdx := none }
  match c.idx with
  | none => (entries, false)
  | some gi =>
    (entries.modify gi fun e => { e with perm := ((mode &&& sIRWXG) >>> 3).toUInt16 }, true)

end Classes

section Loops

variable {mode : UInt32} {xs ys : List PosixAclEntry} {i : ℕ}

def PosixAclEntry.IsNamed (e : PosixAclEntry) : Prop := e.tag = aclTagUser ∨ e.tag = aclTagGroup

theorem chmodLoop_cons {e e' : PosixAclEntry} {c c' : GroupClass}
    (h : chmodEntry mode i e c = (e', c')) :
    chmodLoop mode i (e :: xs) c =
      (e' :: (chmodLoop mode (i + 1) xs c').1, (chmodLoop mode (i + 1) xs c').2) := by
  rw [chmodLoop, h]

theorem chmodEntry_named {e : PosixAclEntry} (h : e.IsNamed) (c : GroupClass) :
    chmodEntry mode i e c = (e, c) := by
  unfold chmodEntry
  rcases h with htag | htag <;> rw [htag] <;> rfl

theorem chmodLoop_named (h : ∀ e ∈ xs, e.IsNamed) (c : GroupClass) :
    chmodLoop mode i (xs ++ ys) c =
      (xs ++ (chmodLoop mode (i + xs.length) ys c).1, (chmodLoop mode (i + xs.length) ys c).2) := by
  induction xs generalizing i with
  | nil => rfl
  | cons e xs ih =>
    have hrest := ih (fun e' he' => h e' (List.mem_cons_of_mem _ he')) (i := i + 1)
    rw [List.cons_append, chmodLoop_cons (chmodEntry_named (h e List.mem_cons_self) c), hrest,
      List.length_cons, Nat.add_right_comm, Nat.add_assoc]
    rfl

theorem masqLoop_cons {e e' : PosixAclEntry} {s s' : Masq}
    (h : masqEntry mode i e s = some (e', s')) :
    masqLoop mode i (e :: xs) s =
      (e' :: (masqLoop mode (i + 1) xs s').1, (masqLoop mode (i + 1) xs s').2) := by
  rw [masqLoop, h]

theorem masqEntry_named {e : PosixAclEntry} (h : e.IsNamed) (s : Masq) :
    masqEntry mode i e s = some (e, s) := by
  unfold masqEntry
  rcases h with htag | htag <;> rw [htag] <;> rfl

theorem masqLoop_named (h : ∀ e ∈ xs, e.IsNamed) (s : Masq) :
    masqLoop mode i (xs ++ ys) s =
      (xs ++ (masqLoop mode (i + xs.length) ys s).1, (masqLoop mode (i + xs.length) ys s).2) := by
  induction xs generalizing i with
  | nil => rfl
  | cons e xs ih =>
    have hrest := ih (fun e' he' => h e' (List.mem_cons_of_mem _ he')) (i := i + 1)
    rw [List.cons_append, masqLoop_cons (masqEntry_named (h e List.mem_cons_self) s), hrest,
      List.length_cons, Nat.add_right_comm, Nat.add_assoc]
    rfl

theorem foldl_accessEntry_named (h : ∀ e ∈ xs, e.IsNamed) (m : UInt32) :
    xs.foldl accessEntry m = m := by
  induction xs with
  | nil => rfl
  | cons e xs ih =>
    have hentry : accessEntry m e = m := by
      unfold accessEntry
      rcases h e List.mem_cons_self with htag | htag <;> rw [htag] <;> rfl
    rw [List.foldl_cons, hentry]
    exact ih fun e' he' => h e' (List.mem_cons_of_mem _ he')

theorem modify_append_length {α : Type} (xs ys : List α) (a : α) (f : α → α) :
    (xs ++ a :: ys).modify xs.length f = xs ++ f a :: ys := by
  induction xs with
  | nil => rfl
  | cons x xs ih => simp [ih]

end Loops

section Bits

def permBits (owner group other : UInt16) : UInt32 :=
  (owner &&& 0o7).toUInt32 <<< 6 ||| (group &&& 0o7).toUInt32 <<< 3 ||| (other &&& 0o7).toUInt32

theorem mask_over_group (owner group mask other : UInt16) :
    (((owner &&& 0o7).toUInt32 <<< 6 ||| (group &&& 0o7).toUInt32 <<< 3) &&& ~~~ sIRWXG) |||
      (mask &&& 0o7).toUInt32 <<< 3 ||| (other &&& 0o7).toUInt32 = permBits owner mask other := by
  apply UInt32.eq_of_toBitVec_eq
  apply BitVec.eq_of_getLsbD_eq
  intro i hi
  simp only [permBits, sIRWXG, UInt32.toBitVec_or, UInt32.toBitVec_and, UInt32.toBitVec_not,
    UInt32.toBitVec_shiftLeft, UInt16.toBitVec_toUInt32, UInt16.toBitVec_and,
    BitVec.shiftLeft_eq']
  interval_cases i <;> simp

theorem permBits_mode (mode : UInt32) :
    permBits ((mode &&& sIRWXU) >>> 6).toUInt16 ((mode &&& sIRWXG) >>> 3).toUInt16
      (mode &&& sIRWXO).toUInt16 = mode &&& sIRWXUGO := by
  apply UInt32.eq_of_toBitVec_eq
  apply BitVec.eq_of_getLsbD_eq
  intro i hi
  simp only [permBits, sIRWXU, sIRWXG, sIRWXO, sIRWXUGO, UInt32.toBitVec_or, UInt32.toBitVec_and,
    UInt32.toBitVec_shiftLeft, UInt32.toBitVec_shiftRight, UInt16.toBitVec_toUInt32,
    UInt32.toBitVec_toUInt16, UInt16.toBitVec_and, BitVec.shiftLeft_eq', BitVec.ushiftRight_eq']
  interval_cases i <;> simp

/-- What the masks of `createModeFromACL` come to. -/
theorem masq_bits (mode : UInt32) (owner group other : UInt16) :
    let m := mode &&&
      (((owner &&& ((mode >>> 6) ||| ~~~ sIRWXO).toUInt16).toUInt32 <<< 6) ||| ~~~ sIRWXU) &&&
      ((other &&& (mode ||| ~~~ sIRWXO).toUInt16).toUInt32 ||| ~~~ sIRWXO)
    (mode &&& ~~~ sIRWXUGO) ||| (m &&&
      (((group &&& ((m >>> 3) ||| ~~~ sIRWXO).toUInt16).toUInt32 <<< 3) ||| ~~~ sIRWXG)) =
        mode &&& (~~~ sIRWXUGO ||| permBits owner group other) := by
  apply UInt32.eq_of_toBitVec_eq
  apply BitVec.eq_of_getLsbD_eq
  intro i hi
  simp only [permBits, sIRWXU, sIRWXG, sIRWXO, sIRWXUGO, UInt32.toBitVec_or, UInt32.toBitVec_and,
    UInt32.toBitVec_not, UInt32.toBitVec_shiftLeft, UInt32.toBitVec_shiftRight,
    UInt16.toBitVec_toUInt32, UInt32.toBitVec_toUInt16, UInt16.toBitVec_and, BitVec.shiftLeft_eq',
    BitVec.ushiftRight_eq']
  interval_cases i <;> simp <;> grind

end Bits

section Canonical

/-- An ACL in the order the kernel enforces. -/
structure CanonicalAcl where
  owner : PosixAclEntry
  users : List PosixAclEntry
  group : PosixAclEntry
  groups : List PosixAclEntry
  mask : Option PosixAclEntry
  other : PosixAclEntry
  owner_tag : owner.tag = aclTagUserObj
  users_tag : ∀ e ∈ users, e.tag = aclTagUser
  group_tag : group.tag = aclTagGroupObj
  groups_tag : ∀ e ∈ groups, e.tag = aclTagGroup
  mask_tag : ∀ e ∈ mask, e.tag = aclTagMask
  other_tag : other.tag = aclTagOther
  masked : users ≠ [] ∨ groups ≠ [] → mask.isSome

namespace CanonicalAcl

variable (a : CanonicalAcl) (mode : UInt32) {e : PosixAclEntry}

def entries : List PosixAclEntry :=
  a.owner :: (a.users ++ (a.group :: (a.groups ++ (a.mask.toList ++ [a.other]))))

def groupClass : PosixAclEntry := a.mask.getD a.group

theorem named_users (h : e ∈ a.users) : e.IsNamed := .inl (a.users_tag e h)

theorem named_groups (h : e ∈ a.groups) : e.IsNamed := .inr (a.groups_tag e h)

theorem tag_mem (h : e ∈ a.entries) : e.tag ∈ aclTags := by
  simp only [entries, List.mem_cons, List.mem_append, Option.mem_toList, List.not_mem_nil,
    or_false] at h
  rcases h with rfl | h | rfl | h | h | rfl
  · rw [a.owner_tag]; decide
  · rw [a.users_tag e h]; decide
  · rw [a.group_tag]; decide
  · rw [a.groups_tag e h]; decide
  · rw [a.mask_tag e h]; decide
  · rw [a.other_tag]; decide

def classes : GroupClass where
  groupIdx := some (1 + a.users.length)
  maskIdx := a.mask.map fun _ => 1 + a.users.length + 1 + a.groups.length

/-- The entry of the group class, between what stands before and after it. -/
theorem split_groupClass (owner other : PosixAclEntry) :
    ∃ front back, a.classes.idx = some front.length ∧
      owner :: (a.users ++ (a.group :: (a.groups ++ (a.mask.toList ++ [other])))) =
        front ++ a.groupClass :: back ∧
      ∀ f : PosixAclEntry → PosixAclEntry, front ++ f a.groupClass :: back =
        owner :: (a.users ++ ((if a.mask.isSome then a.group else f a.group) ::
          (a.groups ++ ((a.mask.map f).toList ++ [other])))) := by
  cases hmask : a.mask with
  | none =>
    refine ⟨owner :: a.users, a.groups ++ [other], ?_, ?_, fun f => ?_⟩
    · simp [classes, GroupClass.idx, hmask, Nat.add_comm]
    · simp [groupClass, hmask]
    · simp [groupClass, hmask]
  | some mask =>
    refine ⟨owner :: (a.users ++ a.group :: a.groups), [other], ?_, ?_, fun f => ?_⟩
    · have hlen : (owner :: (a.users ++ a.group :: a.groups)).length =
          1 + a.users.length + 1 + a.groups.length := by
        simp only [List.length_cons, List.length_append]
        omega
      rw [hlen]
      simp [classes, GroupClass.idx, hmask]
    · simp [groupClass, hmask]
    · simp [groupClass, hmask]

/-- The ACL `chmodAcl` makes. -/
def chmodded : CanonicalAcl where
  owner := { a.owner with perm := ((mode &&& sIRWXU) >>> 6).toUInt16 }
  users := a.users
  group := if a.mask.isSome then a.group
    else { a.group with perm := ((mode &&& sIRWXG) >>> 3).toUInt16 }
  groups := a.groups
  mask := a.mask.map fun e => { e with perm := ((mode &&& sIRWXG) >>> 3).toUInt16 }
  other := { a.other with perm := (mode &&& sIRWXO).toUInt16 }
  owner_tag := a.owner_tag
  users_tag := a.users_tag
  group_tag := by split_ifs <;> exact a.group_tag
  groups_tag := a.groups_tag
  mask_tag := by
    intro e he
    obtain ⟨mask, hmask, rfl⟩ := Option.map_eq_some_iff.mp he
    exact a.mask_tag mask hmask
  other_tag := a.other_tag
  masked := by
    intro h
    simpa using a.masked h

theorem chmodLoop_entries :
    chmodLoop mode 0 a.entries { groupIdx := none, maskIdx := none } =
      ({ a.owner with perm := ((mode &&& sIRWXU) >>> 6).toUInt16 } ::
        (a.users ++ (a.group :: (a.groups ++ (a.mask.toList ++
          [{ a.other with perm := (mode &&& sIRWXO).toUInt16 }])))), a.classes) := by
  have howner (i c) : chmodEntry mode i a.owner c =
      ({ a.owner with perm := ((mode &&& sIRWXU) >>> 6).toUInt16 }, c) := if_pos a.owner_tag
  have hgroup (i c) : chmodEntry mode i a.group c = (a.group, { c with groupIdx := some i }) := by
    unfold chmodEntry
    rw [a.group_tag]
    rfl
  have hother (i c) : chmodEntry mode i a.other c =
      ({ a.other with perm := (mode &&& sIRWXO).toUInt16 }, c) := by
    have htag := a.other_tag
    rw [chmodEntry, if_neg (by rw [htag]; decide), if_neg (by rw [htag]; decide),
      if_neg (by rw [htag]; decide), if_pos htag]
  rw [entries, chmodLoop_cons (howner _ _), chmodLoop_named fun e => a.named_users,
    chmodLoop_cons (hgroup _ _), chmodLoop_named fun e => a.named_groups]
  cases hmask : a.mask with
  | none =>
    rw [Option.toList_none, List.nil_append, chmodLoop_cons (hother _ _), classes, hmask]
    simp [chmodLoop]
  | some mask =>
    have hentry (i c) : chmodEntry mode i mask c = (mask, { c with maskIdx := some i }) := by
      unfold chmodEntry
      rw [a.mask_tag mask hmask]
      rfl
    rw [Option.toList_some, List.singleton_append, chmodLoop_cons (hentry _ _),
      chmodLoop_cons (hother _ _), classes, hmask]
    simp [chmodLoop]

theorem chmodAcl_entries : chmodAcl mode a.entries = ((a.chmodded mode).entries, true) := by
  obtain ⟨front, back, hidx, hsplit, hjoin⟩ := a.split_groupClass
    { a.owner with perm := ((mode &&& sIRWXU) >>> 6).toUInt16 }
    { a.other with perm := (mode &&& sIRWXO).toUInt16 }
  rw [chmodAcl, chmodLoop_entries]
  dsimp only
  rw [hidx, hsplit]
  dsimp only
  rw [modify_append_length]
  exact congrArg (·, true) (hjoin fun e => { e with perm := ((mode &&& sIRWXG) >>> 3).toUInt16 })

theorem accessAclMode_entries :
    accessAclMode a.entries = permBits a.owner.perm a.groupClass.perm a.other.perm := by
  have howner (m) : accessEntry m a.owner = m ||| (a.owner.perm &&& 0o7).toUInt32 <<< 6 :=
    if_pos a.owner_tag
  have hgroup (m) : accessEntry m a.group = m ||| (a.group.perm &&& 0o7).toUInt32 <<< 3 := by
    have htag := a.group_tag
    rw [accessEntry, if_neg (by rw [htag]; decide), if_pos htag]
  have hother (m) : accessEntry m a.other = m ||| (a.other.perm &&& 0o7).toUInt32 := by
    have htag := a.other_tag
    rw [accessEntry, if_neg (by rw [htag]; decide), if_neg (by rw [htag]; decide), if_pos htag]
  rw [accessAclMode, entries, List.foldl_cons, howner, List.foldl_append,
    foldl_accessEntry_named fun e => a.named_users, List.foldl_cons, hgroup, List.foldl_append,
    foldl_accessEntry_named fun e => a.named_groups, List.foldl_append, List.foldl_cons,
    List.foldl_nil, hother, UInt32.zero_or]
  cases hmask : a.mask with
  | none => simp [groupClass, hmask, permBits]
  | some mask =>
    have hentry (m) : accessEntry m mask =
        (m &&& ~~~ sIRWXG) ||| (mask.perm &&& 0o7).toUInt32 <<< 3 := by
      have htag := a.mask_tag mask hmask
      rw [accessEntry, if_neg (by rw [htag]; decide), if_neg (by rw [htag]; decide),
        if_neg (by rw [htag]; decide), if_pos htag]
    rw [Option.toList_some, List.foldl_cons, List.foldl_nil, hentry, groupClass, hmask,
      Option.getD_some]
    exact mask_over_group _ _ _ _

theorem permBits_chmodded :
    permBits (a.chmodded mode).owner.perm (a.chmodded mode).groupClass.perm
      (a.chmodded mode).other.perm = mode &&& sIRWXUGO := by
  have hgroup : (a.chmodded mode).groupClass.perm = ((mode &&& sIRWXG) >>> 3).toUInt16 := by
    cases hmask : a.mask <;> simp [chmodded, groupClass, hmask]
  rw [hgroup]
  exact permBits_mode mode

theorem masqLoop_entries :
    masqLoop mode 0 a.entries { groupIdx := none, maskIdx := none, m := mode } =
      let owner := a.owner.perm &&& ((mode >>> 6) ||| ~~~ sIRWXO).toUInt16
      let other := a.other.perm &&& (mode ||| ~~~ sIRWXO).toUInt16
      ({ a.owner with perm := owner } :: (a.users ++ (a.group :: (a.groups ++ (a.mask.toList ++
        [{ a.other with perm := other }])))),
        some { a.classes with m := mode &&& ((owner.toUInt32 <<< 6) ||| ~~~ sIRWXU) &&&
          (other.toUInt32 ||| ~~~ sIRWXO) }) := by
  have howner (i s) : masqEntry mode i a.owner s = some
      ({ a.owner with perm := a.owner.perm &&& ((mode >>> 6) ||| ~~~ sIRWXO).toUInt16 },
        { s with m := s.m &&& (((a.owner.perm &&& ((mode >>> 6) ||| ~~~ sIRWXO).toUInt16).toUInt32
          <<< 6) ||| ~~~ sIRWXU) }) := if_pos a.owner_tag
  have hgroup (i s) : masqEntry mode i a.group s =
      some (a.group, { s with groupIdx := some i }) := by
    have htag := a.group_tag
    rw [masqEntry, if_neg (by rw [htag]; decide), if_neg (by rw [htag]; decide), if_pos htag]
  have hother (i s) : masqEntry mode i a.other s = some
      ({ a.other with perm := a.other.perm &&& (mode ||| ~~~ sIRWXO).toUInt16 },
        { s with m := s.m &&& ((a.other.perm &&& (mode ||| ~~~ sIRWXO).toUInt16).toUInt32 |||
          ~~~ sIRWXO) }) := by
    have htag := a.other_tag
    rw [masqEntry, if_neg (by rw [htag]; decide), if_neg (by rw [htag]; decide),
      if_neg (by rw [htag]; decide), if_pos htag]
  rw [entries, masqLoop_cons (howner _ _), masqLoop_named fun e => a.named_users,
    masqLoop_cons (hgroup _ _), masqLoop_named fun e => a.named_groups]
  cases hmask : a.mask with
  | none =>
    rw [Option.toList_none, List.nil_append, masqLoop_cons (hother _ _), classes, hmask]
    simp [masqLoop]
  | some mask =>
    have hentry (i s) : masqEntry mode i mask s = some (mask, { s with maskIdx := some i }) := by
      have htag := a.mask_tag mask hmask
      rw [masqEntry, if_neg (by rw [htag]; decide), if_neg (by rw [htag]; decide),
        if_neg (by rw [htag]; decide), if_neg (by rw [htag]; decide), if_pos htag]
    rw [Option.toList_some, List.singleton_append, masqLoop_cons (hentry _ _),
      masqLoop_cons (hother _ _), classes, hmask]
    simp [masqLoop]

theorem createModeFromACL_entries :
    (createModeFromACL mode a.entries).2 = some (mode &&& (~~~ sIRWXUGO |||
      permBits a.owner.perm a.groupClass.perm a.other.perm)) := by
  obtain ⟨front, back, hidx, hsplit, -⟩ := a.split_groupClass
    { a.owner with perm := a.owner.perm &&& ((mode >>> 6) ||| ~~~ sIRWXO).toUInt16 }
    { a.other with perm := a.other.perm &&& (mode ||| ~~~ sIRWXO).toUInt16 }
  rw [createModeFromACL, masqLoop_entries]
  dsimp only
  rw [hidx, hsplit]
  dsimp only
  rw [modify_append_length, List.getElem?_append_right le_rfl, Nat.sub_self]
  exact congrArg some (masq_bits mode a.owner.perm a.groupClass.perm a.other.perm)

/-- The ACL and the mode of a file agree. -/
theorem acl_and_mode_agree :
    (∃ b : CanonicalAcl, chmodAcl mode a.entries = (b.entries, true) ∧
      b.users = a.users ∧ b.groups = a.groups ∧ accessAclMode b.entries = mode &&& sIRWXUGO) ∧
    decodePosixAcl (encodePosixAcl a.entries) = some a.entries ∧
    (createModeFromACL mode a.entries).2 = some (mode &&& (~~~ sIRWXUGO |||
      permBits a.owner.perm a.groupClass.perm a.other.perm)) := by
  refine ⟨⟨a.chmodded mode, a.chmodAcl_entries mode, rfl, rfl, ?_⟩,
    decodePosixAcl_encode (by simp [entries]) fun e => a.tag_mem, a.createModeFromACL_entries mode⟩
  rw [accessAclMode_entries, permBits_chmodded]

end CanonicalAcl

end Canonical

end Briefs.Xattr
