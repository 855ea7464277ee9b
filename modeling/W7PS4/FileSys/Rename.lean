-- SUMMARY: Renaming a file by copying it; the file arrives, and the handles that were open on it do not follow.
import W7PS4.FileSys.HandleTable
import W7PS4.FileSys.HostFs

/-!
# rename

`posix_rename` copies the source to the destination and then removes the source. If a file of the
handle table has the host name of the source, its handle is closed before the removal and opened
again at the destination.

What lies behind the mount points, how the host reads the spelling of a path and what an open gives
are arguments of the model, with nothing assumed of them.
-/

namespace FileSys

abbrev POSIX_ENOTEMPTY : Int := 66

/-! ## The files of the host -/

/-- A file with its contents, or a directory. -/
inductive Entry where
  | file (data : List UInt8)
  | dir
deriving DecidableEq, Repr

/-- The entries of the host by their paths. Above each there are directories. -/
structure HostTree where
  entries : List (HostPath × Entry)
  rooted (path : HostPath) : entries.lookup path ≠ none → ∀ above, above <+: path → above ≠ path →
    entries.lookup above = some .dir

namespace HostTree

def find (host : HostTree) (path : HostPath) : Option Entry := host.entries.lookup path

/-- Whether something is in the directory; `is_empty` says that there is not. -/
def hasBelow (host : HostTree) (path : HostPath) : Bool :=
  host.entries.any fun entry => path <+: entry.1 ∧ entry.1 ≠ path

end HostTree

section Lookup

variable {entries : List (HostPath × Entry)} {path src dst : HostPath}

theorem lookup_filter_key (p : HostPath → Bool) :
    (entries.filter fun entry => p entry.1).lookup path
      = if p path then entries.lookup path else none := by
  induction entries with
  | nil => simp
  | cons entry entries ih =>
    obtain ⟨key, value⟩ := entry
    rw [List.filter_cons, List.lookup_cons]
    by_cases hkey : path = key
    · subst hkey
      cases hp : p path with
      | true => simp
      | false => simp [hp, ih]
    · have hbeq : (path == key) = false := by simpa using hkey
      cases p key with
      | true => simp [List.lookup_cons, hbeq, ih]
      | false => simp [hbeq, ih]

theorem lookup_isSome_of_mem {e : Entry} (h : (path, e) ∈ entries) : entries.lookup path ≠ none := by
  intro hnone
  have := List.lookup_eq_none_iff.1 hnone (path, e) h
  simp at this

theorem exists_mem_of_lookup {e : Entry} (h : entries.lookup path = some e) : (path, e) ∈ entries := by
  obtain ⟨_, _, rfl, -⟩ := List.lookup_eq_some_iff.1 h
  exact List.mem_append_right _ (.head _)

/-- The entries below `src`, as they are called below `dst`. -/
def relocated (entries : List (HostPath × Entry)) (src dst : HostPath) : List (HostPath × Entry) :=
  (entries.filter fun entry => src <+: entry.1).map fun entry =>
    (dst ++ entry.1.drop src.length, entry.2)

theorem lookup_relocated (entries : List (HostPath × Entry)) (src dst rest : HostPath) :
    (relocated entries src dst).lookup (dst ++ rest) = entries.lookup (src ++ rest) := by
  unfold relocated
  induction entries with
  | nil => rfl
  | cons entry entries ih =>
    obtain ⟨key, value⟩ := entry
    rw [List.filter_cons, List.lookup_cons]
    by_cases hbelow : src <+: key
    · obtain ⟨tail, rfl⟩ := hbelow
      have hsame : (dst ++ rest == dst ++ tail) = (src ++ rest == src ++ tail) := by
        rw [Bool.eq_iff_iff]
        simp
      simp [ih, List.lookup_cons, hsame]
    · have hne : (src ++ rest == key) = false := by
        rw [beq_eq_false_iff_ne]
        rintro rfl
        exact hbelow (List.prefix_append _ _)
      simp [hbelow, hne, ih]

theorem lookup_relocated_eq_none (h : ¬dst <+: path) : (relocated entries src dst).lookup path = none := by
  rw [List.lookup_eq_none_iff]
  intro entry hentry
  obtain ⟨_, -, rfl⟩ := List.mem_map.1 hentry
  rw [bne_iff_ne]
  rintro rfl
  exact h (List.prefix_append _ _)

end Lookup

namespace HostTree

variable {host : HostTree} {path src dst : HostPath}

theorem hasBelow_eq_true (host : HostTree) (path : HostPath) :
    host.hasBelow path = true ↔ ∃ below, path <+: below ∧ below ≠ path ∧ host.find below ≠ none := by
  unfold hasBelow
  rw [List.any_eq_true]
  constructor
  · rintro ⟨⟨below, e⟩, hmem, hbelow⟩
    obtain ⟨hpfx, hne⟩ := of_decide_eq_true hbelow
    exact ⟨below, hpfx, hne, lookup_isSome_of_mem hmem⟩
  · rintro ⟨below, hpfx, hne, hfind⟩
    obtain ⟨e, he⟩ := Option.ne_none_iff_exists'.1 hfind
    exact ⟨(below, e), exists_mem_of_lookup he, decide_eq_true ⟨hpfx, hne⟩⟩

/-- What is done to the entries below a path leaves the directories above all others. -/
def removeAll (host : HostTree) (path : HostPath) : HostTree where
  entries := host.entries.filter fun entry => ¬path <+: entry.1
  rooted := by
    intro q hq above habove hne
    rw [lookup_filter_key fun q => ¬path <+: q] at hq ⊢
    split at hq
    · next hout =>
      have hout' : ¬path <+: above := fun hpath =>
        (by simpa using hout : ¬path <+: q) (hpath.trans habove)
      rw [if_pos (by simpa using hout')]
      exact host.rooted q hq above habove hne
    · exact absurd rfl hq

theorem find_removeAll (host : HostTree) (path q : HostPath) :
    (host.removeAll path).find q = if path <+: q then none else host.find q := by
  unfold find removeAll
  rw [lookup_filter_key fun q => ¬path <+: q]
  by_cases h : path <+: q
  · simp [h]
  · simp [h]

end HostTree

/-- What the functions of `std::filesystem` without an `error_code` throw. -/
abbrev filesystemError : Fault := .assertion "std::filesystem::filesystem_error"

namespace HostTree

variable {host : HostTree} {path src dst : HostPath}

/-- `remove`, of a file or of a directory with nothing in it. -/
def remove (host : HostTree) (path : HostPath) : Outcome HostTree :=
  if host.hasBelow path then .error filesystemError else .ok (host.removeAll path)

/-- There is room for a copy: a free place in a directory, a file over a file, or a directory over
an empty one, but never over the source itself or into it. -/
structure Room (host : HostTree) (src dst : HostPath) : Prop where
  isThere : host.find src ≠ none
  outside : ¬src <+: dst
  parent : dst ≠ [] ∧ host.find dst.dropLast = some .dir
  empty : host.hasBelow dst = false
  kind : host.find dst = none ∨ (host.find src = some .dir ↔ host.find dst = some .dir)

instance (host : HostTree) (src dst : HostPath) : Decidable (host.Room src dst) :=
  decidable_of_iff (host.find src ≠ none ∧ ¬src <+: dst ∧ (dst ≠ [] ∧ host.find dst.dropLast = some .dir) ∧
    host.hasBelow dst = false ∧
    (host.find dst = none ∨ (host.find src = some .dir ↔ host.find dst = some .dir)))
    ⟨fun h => ⟨h.1, h.2.1, h.2.2.1, h.2.2.2.1, h.2.2.2.2⟩,
      fun h => ⟨h.isThere, h.outside, h.parent, h.empty, h.kind⟩⟩

/-- The lookup of a path in a copied tree, below the destination and elsewhere. -/
theorem lookup_copied (room : host.Room src dst) (rest : HostPath) :
    (relocated host.entries src dst ++ host.entries).lookup (dst ++ rest) = host.find (src ++ rest) := by
  rw [List.lookup_append, lookup_relocated]
  by_cases hrest : rest = []
  · subst hrest
    obtain ⟨e, he⟩ := Option.ne_none_iff_exists'.1 room.isThere
    rw [find, List.append_nil] at *
    rw [he, Option.some_or]
  · have hold : host.entries.lookup (dst ++ rest) = none := by
      by_contra hsome
      have hbelow := (host.hasBelow_eq_true dst).2
        ⟨dst ++ rest, List.prefix_append _ _, by simpa using hrest, hsome⟩
      rw [room.empty] at hbelow
      cases hbelow
    rw [hold, Option.or_none]
    rfl

theorem lookup_copied_of_outside (h : ¬dst <+: path) :
    (relocated host.entries src dst ++ host.entries).lookup path = host.find path := by
  rw [List.lookup_append, lookup_relocated_eq_none h, Option.none_or]
  rfl

/-- A copy is below a directory, and its files are below its directories. -/
def copied (host : HostTree) (room : host.Room src dst) : HostTree where
  entries := relocated host.entries src dst ++ host.entries
  rooted := by
    intro path hpath above habove hne
    by_cases hinside : dst <+: above
    · obtain ⟨top, rfl⟩ := hinside
      obtain ⟨rest, rfl⟩ := habove
      rw [List.append_assoc, lookup_copied room] at hpath
      rw [lookup_copied room]
      refine host.rooted _ hpath _ ?_ ?_
      · exact ⟨rest, by simp⟩
      · simpa using hne
    · rw [lookup_copied_of_outside hinside]
      by_cases hcopy : dst <+: path
      · have hstrict : above <+: dst :=
          (List.prefix_or_prefix_of_prefix habove hcopy).resolve_right hinside
        have hparent : above <+: dst.dropLast := by
          obtain ⟨rest, rfl⟩ := hstrict
          have hrest : rest ≠ [] := by
            rintro rfl
            exact hinside (by simp)
          rw [List.dropLast_append_of_ne_nil hrest]
          exact List.prefix_append _ _
        by_cases hlast : above = dst.dropLast
        · rw [hlast]
          exact room.parent.2
        · refine host.rooted dst.dropLast ?_ above hparent hlast
          have hdir := room.parent.2
          unfold find at hdir
          rw [hdir]
          simp
      · rw [lookup_copied_of_outside hcopy] at hpath
        exact host.rooted path hpath above habove hne

/-- `copy` with `overwrite_existing | recursive`, where the destination is no other kind of entry
and no directory with something in it. A copy onto the source is an error, and a copy of a directory
into itself has no end until a path is too long. -/
def copy (host : HostTree) (src dst : HostPath) : Outcome HostTree :=
  if room : host.Room src dst then .ok (host.copied room) else .error filesystemError

end HostTree

/-! ## The table and its handles -/

/-- What an `IFile` is open on, and where it stands. `onHost` says that `GetHostFile` is not null. -/
structure OpenFile where
  path : HostPath
  position : Nat
  mode : FileAccessMode
  onHost : Bool
deriving DecidableEq, Repr

/-- The answers of the mount points, and how the host reads the spelling of a path. -/
structure Mounts where
  getHostPath : HostTree → List Char → List Char × Bool
  locate : List Char → Option HostPath
  openFile : HostTree → List Char → FileAccessMode → Option OpenFile

/-- `opened` has the objects of the handles under their numbers. -/
structure FsState where
  table : HandleTable
  host : HostTree
  opened : List OpenFile

/-- `GetFile` of a host name: the first file that has it. -/
def HandleTable.getFileNamed (t : HandleTable) (hostName : List Char) : Option (Nat × FilePtr) :=
  t.mFiles.zipIdx.findSome? fun slot =>
    slot.1.bind fun ptr => if ptr.file.hostName = hostName then some (slot.2, ptr) else none

namespace Mounts

def find (m : Mounts) (host : HostTree) (name : List Char) : Option Entry :=
  (m.locate name).bind host.find

def isEmpty (m : Mounts) (host : HostTree) (name : List Char) : Bool :=
  match m.locate name with
  | some path => !host.hasBelow path
  | none => false

/-- A function of `std::filesystem` on a spelled path. -/
def onPath (m : Mounts) (name : List Char) (f : HostPath → Outcome HostTree) : Outcome HostTree :=
  match m.locate name with
  | some path => f path
  | none => .error filesystemError

/-- What `rename` does not replace. -/
def overwriteErrno (m : Mounts) (host : HostTree) (srcPath dstPath : List Char) : Option Int :=
  let srcIsDir := m.find host srcPath = some .dir
  let dstIsDir := m.find host dstPath = some .dir
  if m.find host dstPath = none then none
  else if srcIsDir ∧ ¬dstIsDir then some POSIX_ENOTDIR
  else if ¬srcIsDir ∧ dstIsDir then some POSIX_EISDIR
  else if dstIsDir ∧ ¬m.isEmpty host dstPath then some POSIX_ENOTEMPTY
  else none

end Mounts

/-- The access mode with which the file is opened again. -/
def FsState.reopenMode (s : FsState) (file : File) : FileAccessMode :=
  match file.handle.bind (s.opened[·]?) with
  | some handle => if handle.onHost then handle.mode else .readWrite
  | none => .readWrite

/-- The file is opened again at the destination. -/
def FsState.reopen (m : Mounts) (s : FsState) (d : Nat) (file : File) (to' : List Char) : FsState :=
  match m.openFile s.host to' (s.reopenMode file) with
  | some handle => { s with
      table := s.table.fill d { file with handle := some s.opened.length, guestName := to' }
      opened := s.opened ++ [handle] }
  | none => { s with table := s.table.fill d { file with handle := none, guestName := to' } }

/-- `posix_rename`: the result or `errno`, unless a function of the host's files throws. -/
def posixRename (m : Mounts) (s : FsState) (from' to' : List Char) : Outcome (Except Int Int × FsState) :=
  let (srcPath, ro) := m.getHostPath s.host from'
  if from'.length > 255 then .ok (.error POSIX_ENAMETOOLONG, s)
  else if to'.length > 255 then .ok (.error POSIX_ENAMETOOLONG, s)
  else if m.find s.host srcPath = none then .ok (.error POSIX_ENOENT, s)
  else if ro then .ok (.error POSIX_EROFS, s)
  else
    let (dstPath, ro) := m.getHostPath s.host to'
    if ro then .ok (.error POSIX_EROFS, s)
    else
      match m.overwriteErrno s.host srcPath dstPath with
      | some errno => .ok (.error errno, s)
      | none => do
        let host ← m.onPath srcPath fun src => m.onPath dstPath fun dst => s.host.copy src dst
        match s.table.getFileNamed srcPath with
        | some (d, ptr) => do
          let host ← m.onPath srcPath host.remove
          return (.ok 0, FsState.reopen m { s with host := host } d ptr.file to')
        | none => do
          let host ← m.onPath srcPath fun src => .ok (host.removeAll src)
          return (.ok 0, { s with host := host })

/-! ## What a renaming should do -/

/-- What was found at the source, and below it, is at the destination, and nothing else changes. -/
structure HostTree.Moved (host host' : HostTree) (src dst : HostPath) : Prop where
  arrived (rest : HostPath) : host'.find (dst ++ rest) = host.find (src ++ rest)
  gone (path : HostPath) : src ≠ dst → src <+: path → host'.find path = none
  others (path : HostPath) : ¬src <+: path → ¬dst <+: path → host'.find path = host.find path

/-- Every file of the table that has the name of the source gets that of the destination, and its
handle is on the file there at the position where it was. -/
def FsState.HandlesFollow (s s' : FsState) (srcPath dstPath : List Char) (dst : HostPath) : Prop :=
  ∀ d ptr, s.table.live d = some ptr → ptr.file.hostName = srcPath →
    ∃ ptr', s'.table.live d = some ptr' ∧ ptr'.file.hostName = dstPath ∧
      ∀ handle, ptr.file.handle.bind (s.opened[·]?) = some handle →
        ∃ handle', ptr'.file.handle.bind (s'.opened[·]?) = some handle' ∧
          handle'.path = dst ∧ handle'.position = handle.position

/-- No file of the table has the name. -/
def HandleTable.Unnamed (t : HandleTable) (hostName : List Char) : Prop :=
  ∀ d ptr, t.live d = some ptr → ptr.file.hostName ≠ hostName

/-! ## What it does -/

/-- Copied and removed is moved. -/
theorem HostTree.moved {host : HostTree} {src dst : HostPath} (room : host.Room src dst) :
    host.Moved ((host.copied room).removeAll src) src dst := by
  have hfind (path : HostPath) (h : ¬src <+: path) :
      ((host.copied room).removeAll src).find path = (host.copied room).find path := by
    rw [find_removeAll, if_neg h]
  refine ⟨fun rest => ?_, fun path _ hsrc => ?_, fun path hsrc hdst => ?_⟩
  · have hapart : ¬src <+: dst ++ rest := by
      intro hpfx
      rcases List.prefix_or_prefix_of_prefix hpfx (List.prefix_append dst rest) with hin | hin
      · exact room.outside hin
      · have hne : src ≠ dst := by
          rintro rfl
          exact room.outside hin
        have hbelow := (host.hasBelow_eq_true dst).2 ⟨src, hin, hne, room.isThere⟩
        rw [room.empty] at hbelow
        cases hbelow
    rw [hfind _ hapart]
    exact lookup_copied room rest
  · rw [find_removeAll, if_pos hsrc]
  · rw [hfind _ hsrc]
    exact lookup_copied_of_outside hdst

variable {ptr : FilePtr} {t : HandleTable}

/-- The slots of the table are its live files. -/
theorem HandleTable.live_eq_some {d : Int} :
    t.live d = some ptr ↔ ∃ n : Nat, d = n ∧ t.mFiles[n]? = some (some ptr) := by
  unfold live
  split
  · next hneg =>
    refine iff_of_false nofun ?_
    rintro ⟨n, rfl, -⟩
    omega
  · next hnonneg =>
    obtain ⟨n, rfl⟩ := Int.eq_ofNat_of_zero_le (Int.not_lt.1 hnonneg)
    rw [Int.toNat_natCast, Option.join_eq_some_iff]
    exact ⟨fun h => ⟨n, rfl, h⟩, by
      rintro ⟨k, hk, h⟩
      rwa [Int.ofNat_inj.1 hk]⟩

theorem HandleTable.mem_of_live {d : Int} (h : t.live d = some ptr) : some ptr ∈ t.mFiles := by
  obtain ⟨n, -, hslot⟩ := live_eq_some.1 h
  exact List.mem_of_getElem? hslot

theorem HandleTable.getFileNamed_spec {hostName : List Char} {d : Nat}
    (h : t.getFileNamed hostName = some (d, ptr)) :
    t.live d = some ptr ∧ ptr.file.hostName = hostName := by
  unfold getFileNamed at h
  obtain ⟨⟨slot, n⟩, hmem, hslot⟩ := List.exists_of_findSome?_eq_some h
  obtain ⟨ptr', hptr, hslot⟩ := Option.bind_eq_some_iff.1 hslot
  split at hslot
  · next hname =>
    cases hslot
    refine ⟨live_eq_some.2 ⟨n, rfl, ?_⟩, hname⟩
    exact (List.mk_mem_zipIdx_iff_getElem?.1 hmem).trans (congrArg some hptr)
  · cases hslot

theorem HandleTable.live_fill_self {d : Nat} (file : File)
    (h : t.live d = some ptr) : (t.fill d file).live d = some { ptr with file := file } := by
  rw [live_natCast] at *
  unfold fill
  rw [List.getElem?_modify_eq, Option.join_eq_some_iff.1 h]
  rfl

variable {m : Mounts} {s s' : FsState} {from' to' : List Char} {r : Int}

theorem Mounts.onPath_eq_ok {name : List Char} {f : HostPath → Outcome HostTree} {host : HostTree} :
    m.onPath name f = .ok host ↔ ∃ path, m.locate name = some path ∧ f path = .ok host := by
  unfold onPath
  cases m.locate name with
  | none => simp
  | some path => simp

theorem HostTree.copy_eq_ok {host host' : HostTree} {src dst : HostPath} :
    host.copy src dst = .ok host' ↔ ∃ room : host.Room src dst, host' = host.copied room := by
  unfold copy
  split
  · next room =>
    constructor
    · exact fun h => ⟨room, (Except.ok.inj h).symm⟩
    · rintro ⟨_, rfl⟩
      rfl
  · next hroom =>
    constructor
    · intro h
      cases h
    · rintro ⟨room, -⟩
      exact absurd room hroom

/-- The renaming succeeds: the entries are copied and removed, and at most one file of the table is
written, without its host name. -/
theorem posixRename_cases (h : posixRename m s from' to' = .ok (.ok r, s')) :
    ∃ src dst, m.locate (m.getHostPath s.host from').1 = some src ∧
      m.locate (m.getHostPath s.host to').1 = some dst ∧
      (∃ room : s.host.Room src dst, s'.host = (s.host.copied room).removeAll src) ∧
      ((s.table.getFileNamed (m.getHostPath s.host from').1 = none ∧ s'.table = s.table ∧
          s'.opened = s.opened) ∨
        ∃ d ptr file, s.table.getFileNamed (m.getHostPath s.host from').1 = some (d, ptr) ∧
          file.hostName = ptr.file.hostName ∧ s'.table = s.table.fill d file) := by
  unfold posixRename at h
  dsimp only at h
  split at h
  · cases h
  split at h
  · cases h
  split at h
  · cases h
  split at h
  · cases h
  split at h
  · cases h
  split at h
  · cases h
  obtain ⟨host, hcopy, h⟩ := Outcome.bind_eq_ok.1 h
  obtain ⟨src, hsrc, hcopy⟩ := Mounts.onPath_eq_ok.1 hcopy
  obtain ⟨dst, hdst, hcopy⟩ := Mounts.onPath_eq_ok.1 hcopy
  obtain ⟨room, rfl⟩ := HostTree.copy_eq_ok.1 hcopy
  refine ⟨src, dst, hsrc, hdst, ?_⟩
  split at h
  · next d ptr hnamed =>
    obtain ⟨host, hremove, h⟩ := Outcome.bind_eq_ok.1 h
    obtain ⟨path, hpath, hremove⟩ := Mounts.onPath_eq_ok.1 hremove
    obtain rfl : src = path := Option.some.inj (hsrc.symm.trans hpath)
    unfold HostTree.remove at hremove
    split at hremove
    · cases hremove
    cases hremove
    cases h
    unfold FsState.reopen
    split
    · exact ⟨⟨room, rfl⟩, .inr ⟨d, ptr,
        { ptr.file with handle := some s.opened.length, guestName := to' }, hnamed, rfl, rfl⟩⟩
    · exact ⟨⟨room, rfl⟩, .inr ⟨d, ptr, { ptr.file with handle := none, guestName := to' }, hnamed,
        rfl, rfl⟩⟩
  · next hnamed =>
    obtain ⟨host, hremove, h⟩ := Outcome.bind_eq_ok.1 h
    obtain ⟨path, hpath, hremove⟩ := Mounts.onPath_eq_ok.1 hremove
    obtain rfl : src = path := Option.some.inj (hsrc.symm.trans hpath)
    cases hremove
    cases h
    exact ⟨⟨room, rfl⟩, .inl ⟨hnamed, rfl, rfl⟩⟩

/-- A renaming moves the entries. The handles follow if and only if there are none: each file that
had the name of the source keeps it. -/
theorem posixRename_keeps_iff (m : Mounts) (s s' : FsState) (from' to' : List Char) (r : Int)
    (h : posixRename m s from' to' = .ok (.ok r, s')) :
    ∃ src dst, m.locate (m.getHostPath s.host from').1 = some src ∧
      m.locate (m.getHostPath s.host to').1 = some dst ∧
      (s.host.Moved s'.host src dst ∧
          s.HandlesFollow s' (m.getHostPath s.host from').1 (m.getHostPath s.host to').1 dst ↔
        s.table.Unnamed (m.getHostPath s.host from').1) ∧
      s.host.Moved s'.host src dst ∧
      ∀ d ptr, s.table.live d = some ptr → ptr.file.hostName = (m.getHostPath s.host from').1 →
        ∃ ptr', s'.table.live d = some ptr' ∧ ptr'.file.hostName = ptr.file.hostName := by
  obtain ⟨src, dst, hsrc, hdst, ⟨room, hhost⟩, htable⟩ := posixRename_cases h
  have hmoved : s.host.Moved s'.host src dst := hhost ▸ HostTree.moved room
  have hne : (m.getHostPath s.host from').1 ≠ (m.getHostPath s.host to').1 := by
    intro heq
    rw [heq, hdst] at hsrc
    cases hsrc
    exact room.outside (List.prefix_refl _)
  have hstale (d : Int) (ptr : FilePtr) (hlive : s.table.live d = some ptr) :
      ∃ ptr', s'.table.live d = some ptr' ∧ ptr'.file.hostName = ptr.file.hostName := by
    rcases htable with ⟨-, heq, -⟩ | ⟨n, found, file, hfound, hname, heq⟩
    · exact ⟨ptr, heq ▸ hlive, rfl⟩
    · rw [heq]
      by_cases hd : d = n
      · subst hd
        have hlive' := (HandleTable.getFileNamed_spec hfound).1
        obtain rfl : ptr = found := Option.some.inj (hlive.symm.trans hlive')
        exact ⟨_, HandleTable.live_fill_self file hlive, hname⟩
      · exact ⟨ptr, (HandleTable.live_fill s.table file hd).trans hlive, rfl⟩
  refine ⟨src, dst, hsrc, hdst, ⟨?_, fun hunnamed => ⟨hmoved, ?_⟩⟩, hmoved, fun d ptr hlive _ =>
    hstale d ptr hlive⟩
  · rintro ⟨-, hfollow⟩ d ptr hlive hname
    obtain ⟨ptr', hlive', hname', -⟩ := hfollow d ptr hlive hname
    obtain ⟨ptr'', hlive'', hname''⟩ := hstale d ptr hlive
    obtain rfl : ptr' = ptr'' := Option.some.inj (hlive'.symm.trans hlive'')
    exact hne (hname.symm.trans (hname''.symm.trans hname'))
  · exact fun d ptr hlive hname => absurd hname (hunnamed d ptr hlive)

/-! ## Runs on a small tree -/

/-- The root of the host with the files `a` and `c`. -/
def twoFiles : HostTree where
  entries := [([], .dir), ([[97]], .file [1, 2, 3]), ([[99]], .file [4, 5])]
  rooted := by
    intro path hpath above habove hne
    have hlength : path.length ≤ 1 := by
      by_contra hlong
      have hnot : ∀ entry : HostPath, entry.length ≤ 1 → (path == entry) = false := fun entry hentry =>
        beq_eq_false_iff_ne.2 fun heq => hlong (heq ▸ hentry)
      exact hpath (by simp [List.lookup_cons, hnot])
    have hshorter : above.length < path.length :=
      lt_of_le_of_ne habove.length_le fun heq => hne (habove.eq_of_length heq)
    obtain rfl : above = [] := List.length_eq_zero_iff.1 (by omega)
    rfl

/-- Host names are guest names, and an open stands at the start. -/
def flatMounts : Mounts where
  getHostPath := fun _ path => (path, false)
  locate := fun name => some [name.map fun c => UInt8.ofNat c.toNat]
  openFile := fun _ path mode => some ⟨[path.map fun c => UInt8.ofNat c.toNat], 0, mode, true⟩

/-- A file of the given name, with what a renaming writes. -/
def fileNamed (hostName guestName : List Char) (handle : Nat) : File :=
  { isOpened := true, hostName := hostName, guestName := guestName, handle := some handle }

/-- A file is open, with the given handle. -/
def reading (file : File) (handle : OpenFile) : FsState where
  table := ⟨[none, none, none, some ⟨0, file⟩], 1⟩
  host := twoFiles
  opened := [handle]

/-- `a` is open and two bytes of it have been read. -/
def readingA : FsState := reading (fileNamed ['a'] ['a'] 0) ⟨[[97]], 2, .read, true⟩

/-- `c` is open and a byte of it has been read. -/
def readingC : FsState := reading (fileNamed ['c'] ['c'] 0) ⟨[[99]], 1, .read, true⟩

/-- With another file open the renaming of `a` to `b` is one. -/
theorem posixRename_keeps_closed :
    ∃ s', posixRename flatMounts readingC ['a'] ['b'] = .ok (.ok 0, s') ∧
      readingC.host.Moved s'.host [[97]] [[98]] ∧ readingC.HandlesFollow s' ['a'] ['b'] [[98]] ∧
      s'.host.find [[98]] = some (.file [1, 2, 3]) ∧
      s'.table = readingC.table ∧ s'.opened = readingC.opened := by
  have hroom : twoFiles.Room [[97]] [[98]] := by decide
  have hunnamed : readingC.table.Unnamed ['a'] := by
    intro d ptr hlive hname
    have hfile : ∀ slot ∈ readingC.table.mFiles, ∀ ptr ∈ slot, ptr.file.hostName ≠ ['a'] := by decide
    exact hfile (some ptr) (HandleTable.mem_of_live hlive) ptr rfl hname
  refine ⟨⟨readingC.table, (twoFiles.copied hroom).removeAll [[97]], readingC.opened⟩, rfl, ?_⟩
  obtain ⟨src, dst, hsrc, hdst, hiff, -⟩ := posixRename_keeps_iff flatMounts readingC _ ['a'] ['b'] 0
    (rfl : posixRename flatMounts readingC ['a'] ['b']
      = .ok (.ok 0, ⟨readingC.table, (twoFiles.copied hroom).removeAll [[97]], readingC.opened⟩))
  cases hsrc
  cases hdst
  obtain ⟨hmoved, hfollow⟩ := hiff.2 hunnamed
  exact ⟨hmoved, hfollow, rfl, rfl, rfl⟩

/-- With `a` open the handle is at the start of `b`, and the file is still called `a`. -/
theorem posixRename_stale :
    ∃ s', posixRename flatMounts readingA ['a'] ['b'] = .ok (.ok 0, s') ∧
      ¬readingA.HandlesFollow s' ['a'] ['b'] [[98]] ∧
      s'.table.getFileNamed ['b'] = none ∧
      (s'.table.getFileNamed ['a']).map (fun found => found.2.file.guestName) = some ['b'] ∧
      s'.opened[1]? = some ⟨[[98]], 0, .read, true⟩ := by
  have hroom : twoFiles.Room [[97]] [[98]] := by decide
  refine ⟨⟨⟨[none, none, none, some ⟨0, fileNamed ['a'] ['b'] 1⟩], 1⟩, (twoFiles.copied hroom).removeAll [[97]],
    [⟨[[97]], 2, .read, true⟩, ⟨[[98]], 0, .read, true⟩]⟩, rfl, fun hfollow => ?_, rfl, rfl, rfl⟩
  obtain ⟨ptr', hlive, hname, -⟩ := hfollow 3 _ rfl rfl
  cases hlive
  exact absurd hname (by decide)

end FileSys
