-- SUMMARY: The table of open files refines a map from descriptors to files; two of its getters fault on the slot of a closed descriptor.
import W7PS4.Lib.Machine
import W7PS4.Lib.Reaches

/-!
# The handle table

`m_files` is a vector of pointers, and the slot of a closed descriptor stays in it as a null
pointer until it is used again. To its callers the table is a map from descriptors to files:
`open` adds a file at the lowest free descriptor or, when it fails, nothing.

Whether a path exists, what is behind it and whether it can be opened is the business of the
mount points. Their answers are arguments of `open`, with nothing assumed of them.
-/

namespace FileSys

open Option (isNone join_some)

abbrev POSIX_EPERM : Int := 1
abbrev POSIX_ENOENT : Int := 2
abbrev POSIX_EIO : Int := 5
abbrev POSIX_EBADF : Int := 9
abbrev POSIX_EEXIST : Int := 17
abbrev POSIX_ENOTDIR : Int := 20
abbrev POSIX_EISDIR : Int := 21
abbrev POSIX_EINVAL : Int := 22
abbrev POSIX_EROFS : Int := 30
abbrev POSIX_ENAMETOOLONG : Int := 63

abbrev ORBIS_KERNEL_O_RDONLY : UInt32 := 0x0000
abbrev ORBIS_KERNEL_O_WRONLY : UInt32 := 0x0001
abbrev ORBIS_KERNEL_O_RDWR : UInt32 := 0x0002
abbrev ORBIS_KERNEL_O_APPEND : UInt32 := 0x0008
abbrev ORBIS_KERNEL_O_CREAT : UInt32 := 0x0200
abbrev ORBIS_KERNEL_O_TRUNC : UInt32 := 0x0400
abbrev ORBIS_KERNEL_O_EXCL : UInt32 := 0x0800
abbrev ORBIS_KERNEL_O_DIRECTORY : UInt32 := 0x00020000

/-! ## The table -/

inductive FileType where
  | regular | directory | device | socket | epoll | resolver | equeue
deriving DecidableEq, Repr

/-- `File`. What its pointers lead to is known by a number. `hostName` stands for a
`std::filesystem::path`: paths are compared by their components, so all spellings of the same
components are one name here. -/
structure File where
  isOpened : Bool := false
  type : FileType := .regular
  hostName : List Char := []
  guestName : List Char := []
  handle : Option Nat := none
  directory : Option Nat := none
  device : Option Nat := none
  socket : Option Nat := none
deriving DecidableEq, Repr

/-- A `File*`: the address `new` has given, and the object there. -/
structure FilePtr where
  address : Nat
  file : File
deriving DecidableEq, Repr

/-- `nextAddress` is one that no object has had. -/
structure HandleTable where
  mFiles : List (Option FilePtr) := []
  nextAddress : Nat := 0
deriving DecidableEq, Repr

namespace HandleTable

/-- The first slot that holds a null pointer is used again. -/
def createHandle (t : HandleTable) : Nat × HandleTable :=
  let file : FilePtr := ⟨t.nextAddress, {}⟩
  let index := t.mFiles.findIdx isNone
  if index < t.mFiles.length then
    (index, { mFiles := t.mFiles.set index (some file), nextAddress := t.nextAddress + 1 })
  else (t.mFiles.length, { mFiles := t.mFiles ++ [some file], nextAddress := t.nextAddress + 1 })

/-- `m_files.at(d)`, which throws outside of the vector. -/
def slotAt (t : HandleTable) (d : Int) : Outcome (Option FilePtr) :=
  if d < 0 then .error (.assertion "std::out_of_range")
  else
    match t.mFiles[d.toNat]? with
    | none => .error (.assertion "std::out_of_range")
    | some slot => .ok slot

def deleteHandle (t : HandleTable) (d : Int) : Outcome HandleTable := do
  let _ ← t.slotAt d
  return { t with mFiles := t.mFiles.set d.toNat none }

def getFile (t : HandleTable) (d : Int) : Outcome (Option FilePtr) :=
  if d < 0 ∨ d ≥ t.mFiles.length then .ok none else t.slotAt d

def getSocket (t : HandleTable) (d : Int) : Outcome (Option FilePtr) :=
  if d < 0 ∨ d ≥ t.mFiles.length then .ok none
  else do
    match ← t.slotAt d with
    | none => return none
    | some file => return if file.file.type ≠ .socket then none else some file

/-- The getters without a check of the pointer. -/
def getOfType (type : FileType) (t : HandleTable) (d : Int) : Outcome (Option FilePtr) :=
  if d < 0 ∨ d ≥ t.mFiles.length then .ok none
  else do
    let file ← deref (← t.slotAt d)
    return if file.file.type ≠ type then none else some file

def getEpoll : HandleTable → Int → Outcome (Option FilePtr) := getOfType .epoll

def getResolver : HandleTable → Int → Outcome (Option FilePtr) := getOfType .resolver

/-- What the holder of the pointer at `d` writes into the file. -/
def fill (t : HandleTable) (d : Nat) (file : File) : HandleTable :=
  { t with mFiles := t.mFiles.modify d (Option.map fun ptr => { ptr with file := file }) }

/-- One of the three calls of `setup`. -/
def setup (t : HandleTable) (path : String) (device : Nat) : HandleTable :=
  let (fd, t) := t.createHandle
  t.fill fd { isOpened := true, type := .device, guestName := path.toList, device := some device }

def createStdHandles (t : HandleTable) : HandleTable :=
  ((t.setup "/dev/stdin" 0).setup "/dev/stdout" 1).setup "/dev/stderr" 2

end HandleTable

/-! ## open and close -/

inductive FileAccessMode where
  | read | write | readWrite | append | readAppend
deriving DecidableEq, Repr

/-- What the mount points answer about the path, and the object made for it if it is a directory
or a device. `backend` is the handle that the backend serves, with `IsOpen`. -/
structure Mounted where
  hostName : List Char
  readOnly : Bool
  exist : Bool
  isDirectory : Bool
  backend : FileAccessMode → Option (Nat × Bool)
  object : Nat

/-- The device of an open descriptor, or a new one. -/
inductive DeviceFactory where
  | ofDescriptor (fd : Nat)
  | create
deriving DecidableEq, Repr

/-- In the order of the keys. -/
def availableDevice : List (String × DeviceFactory) :=
  [("/dev/console", .create), ("/dev/deci_stderr", .ofDescriptor 2),
    ("/dev/deci_stdin", .ofDescriptor 0), ("/dev/deci_stdout", .ofDescriptor 1),
    ("/dev/deci_tty6", .create), ("/dev/deci_tty7", .create), ("/dev/fd/0", .ofDescriptor 0),
    ("/dev/fd/1", .ofDescriptor 1), ("/dev/fd/2", .ofDescriptor 2), ("/dev/null", .ofDescriptor 0),
    ("/dev/random", .create), ("/dev/rng", .create), ("/dev/srandom", .create),
    ("/dev/stderr", .ofDescriptor 2), ("/dev/stdin", .ofDescriptor 0),
    ("/dev/stdout", .ofDescriptor 1), ("/dev/urandom", .create), ("/dev/zero", .create)]

def DeviceFactory.make (factory : DeviceFactory) (t : HandleTable) (object : Nat) :
    Outcome (Option Nat) :=
  match factory with
  | .create => .ok (some object)
  | .ofDescriptor fd => do return (← deref (← t.getFile fd)).file.device

/-- A call's result, or the value of `errno`. -/
abbrev Posix := Except Int Int × HandleTable

/-- An error after the handle has been created. -/
def failWith (t : HandleTable) (handle : Nat) (errno : Int) : Outcome Posix := do
  return (.error errno, ← t.deleteHandle handle)

def accessMode (truncate read write append : Bool) : FileAccessMode :=
  if truncate then .readWrite
  else if read then .read
  else if write then if append then .append else .write
  else if append then .readAppend else .readWrite

/-- The part of `open` behind the checks of whether the path exists. -/
def openFound (m : Mounted) (t : HandleTable) (handle : Nat) (file : File) (flags : UInt32) :
    Outcome Posix :=
  let read := flags &&& 0x3 = ORBIS_KERNEL_O_RDONLY
  let write := flags &&& 0x3 = ORBIS_KERNEL_O_WRONLY
  let rdwr := flags &&& 0x3 = ORBIS_KERNEL_O_RDWR
  let append := flags &&& ORBIS_KERNEL_O_APPEND ≠ 0
  let truncate := flags &&& ORBIS_KERNEL_O_TRUNC ≠ 0
  let directory := m.isDirectory ∨ flags &&& ORBIS_KERNEL_O_DIRECTORY ≠ 0
  if directory then
    if ¬m.isDirectory then failWith t handle POSIX_ENOTDIR
    else if write ∨ rdwr then failWith t handle POSIX_EISDIR
    else if truncate then failWith t handle POSIX_EISDIR
    else .ok (.ok handle, t.fill handle
      { file with type := .directory, isOpened := true, directory := some m.object })
  else if (write ∨ rdwr ∨ truncate) ∧ m.readOnly then failWith t handle POSIX_EROFS
  else
    match m.backend (accessMode truncate read write append) with
    | some (backend, true) => .ok (.ok handle, t.fill handle
        { file with type := .regular, isOpened := true, handle := some backend })
    | _ => failWith t handle (if write ∨ rdwr ∨ truncate then POSIX_EROFS else POSIX_EIO)

/-- The part of `open` behind the devices. -/
def openPath (m : Mounted) (t : HandleTable) (handle : Nat) (path : List Char) (flags : UInt32) :
    Outcome Posix :=
  let create := flags &&& ORBIS_KERNEL_O_CREAT ≠ 0
  let excl := flags &&& ORBIS_KERNEL_O_EXCL ≠ 0
  let file : File := { guestName := path, hostName := m.hostName }
  let t := t.fill handle file
  if create then
    if excl ∧ m.exist then failWith t handle POSIX_EEXIST
    else if ¬m.exist ∧ m.readOnly then failWith t handle POSIX_EROFS
    else openFound m t handle file flags
  else if ¬m.exist then failWith t handle POSIX_ENOENT
  else openFound m t handle file flags

/-- `open`. A path under `/dev/` that is no device is opened like any other. -/
def posixOpen (m : Mounted) (t : HandleTable) (path : List Char) (flags : UInt32) : Outcome Posix :=
  let read := flags &&& 0x3 = ORBIS_KERNEL_O_RDONLY
  let write := flags &&& 0x3 = ORBIS_KERNEL_O_WRONLY
  let rdwr := flags &&& 0x3 = ORBIS_KERNEL_O_RDWR
  if ¬read ∧ ¬write ∧ ¬rdwr then .ok (.error POSIX_EINVAL, t)
  else if path.length > 255 then .ok (.error POSIX_ENAMETOOLONG, t)
  else
    let (handle, t) := t.createHandle
    let device := if "/dev/".toList.isPrefixOf path then
      availableDevice.find? fun entry => entry.1.toList.isPrefixOf path else none
    match device with
    | some (_, factory) => do
      let object ← factory.make t m.object
      return (.ok handle, t.fill handle
        { isOpened := true, type := .device, guestName := path, device := object })
    | none => openPath m t handle path flags

/-- `file->socket->Close()`. -/
def File.closeSocket (file : File) : Outcome Unit :=
  if file.type = .socket then do
    let _ ← deref file.socket
    return ()
  else .ok ()

/-- What `close` writes into the file before it is deleted. -/
def File.closed (file : File) : File :=
  if file.type = .regular then { file with handle := none, isOpened := false }
  else { file with isOpened := false }

/-- `close`. -/
def posixClose (t : HandleTable) (fd : Int) : Outcome Posix := do
  match ← t.getFile fd with
  | none => return (.error POSIX_EBADF, t)
  | some ptr =>
    if fd < 3 then return (.error POSIX_EPERM, t)
    ptr.file.closeSocket
    return (.ok 0, ← (t.fill fd.toNat ptr.file.closed).deleteHandle fd)

/-! ## The map -/

/-- What the table is to its callers. -/
abbrev FileMap := Int → Option FilePtr

def HandleTable.live (t : HandleTable) : FileMap :=
  fun d => if d < 0 then none else t.mFiles[d.toNat]?.join

namespace FileMap

/-- No file at the descriptor, and one at every descriptor below. -/
structure LowestFree (m : FileMap) (d : Int) : Prop where
  nonneg : 0 ≤ d
  free : m d = none
  lowest (d' : Int) : 0 ≤ d' → d' < d → m d' ≠ none

/-- The object is none of the live files. -/
def New (m : FileMap) (ptr : FilePtr) : Prop := ∀ d ptr', m d = some ptr' → ptr'.address ≠ ptr.address

/-- No two descriptors share a file. -/
def OwnFiles (m : FileMap) : Prop :=
  ∀ d d' ptr ptr', m d = some ptr → m d' = some ptr' → ptr.address = ptr'.address → d = d'

def set (m : FileMap) (d : Int) (slot : Option FilePtr) : FileMap := fun d' => if d' = d then slot else m d'

def ofType (m : FileMap) (type : FileType) (d : Int) : Option FilePtr :=
  (m d).filter fun ptr => ptr.file.type = type

end FileMap

namespace HandleTable

variable {t : HandleTable} {d : Nat} {ptr : FilePtr}

theorem live_natCast (t : HandleTable) (d : Nat) : t.live d = t.mFiles[d]?.join := by
  unfold live
  rw [if_neg (by omega), Int.toNat_natCast]

theorem live_neg {d : Int} (h : d < 0) : t.live d = none := if_pos h

theorem live_of_length_le {d : Int} (h : t.mFiles.length ≤ d) : t.live d = none := by
  obtain ⟨n, rfl⟩ := Int.eq_ofNat_of_zero_le (a := d) (by omega)
  rw [live_natCast, List.getElem?_eq_none (by omega)]
  rfl

variable {slot : Option FilePtr}

/-- The table with another pointer in a slot. -/
theorem live_set {files : List (Option FilePtr)} {next : Nat}
    (hd : d < t.mFiles.length) (hfiles : files = t.mFiles.set d slot) :
    live ⟨files, next⟩ = t.live.set d slot := by
  funext d'
  rw [FileMap.set]
  by_cases hneg : d' < 0
  · rw [live_neg hneg, live_neg hneg, if_neg (by omega)]
  obtain ⟨n, rfl⟩ := Int.eq_ofNat_of_zero_le (Int.not_lt.1 hneg)
  rw [live_natCast, live_natCast, hfiles]
  by_cases heq : n = d
  · subst heq
    rw [if_pos rfl, List.getElem?_set_self hd]
    rfl
  · rw [if_neg (by omega), List.getElem?_set_ne (Ne.symm heq)]

theorem live_append {next : Nat} : live ⟨t.mFiles ++ [slot], next⟩ = t.live.set t.mFiles.length slot := by
  funext d'
  rw [FileMap.set]
  by_cases hneg : d' < 0
  · rw [live_neg hneg, live_neg hneg, if_neg (by omega)]
  obtain ⟨n, rfl⟩ := Int.eq_ofNat_of_zero_le (Int.not_lt.1 hneg)
  rw [live_natCast, live_natCast, List.getElem?_append]
  by_cases hlt : n < t.mFiles.length
  · rw [if_pos hlt, if_neg (by omega)]
  rw [if_neg hlt]
  by_cases heq : n = t.mFiles.length
  · rw [heq, Nat.sub_self, if_pos rfl]
    rfl
  · rw [if_neg (by omega), List.getElem?_eq_none (by simp; omega),
      List.getElem?_eq_none (by omega)]

/-! ## Creating and deleting -/

/-- The lowest slot with a null pointer, or the end of the vector. -/
def freeSlot (t : HandleTable) : Nat := min (t.mFiles.findIdx isNone) t.mFiles.length

theorem freeSlot_lowest (t : HandleTable) : t.live.LowestFree t.freeSlot := by
  have hle : t.mFiles.findIdx isNone ≤ t.mFiles.length := List.findIdx_le_length
  have hslot : t.freeSlot = t.mFiles.findIdx isNone := Nat.min_eq_left hle
  rw [hslot]
  refine ⟨Int.natCast_nonneg _, ?_, fun d' hnonneg hlt => ?_⟩
  · rw [live_natCast]
    by_cases hfound : t.mFiles.findIdx isNone < t.mFiles.length
    · have hnull := List.findIdx_getElem (p := isNone) (w := hfound)
      rw [List.getElem?_eq_getElem hfound, Option.isNone_iff_eq_none.1 hnull]
      rfl
    · rw [List.getElem?_eq_none (by omega)]
      rfl
  · obtain ⟨n, rfl⟩ := Int.eq_ofNat_of_zero_le hnonneg
    have hn : n < t.mFiles.findIdx isNone := by omega
    have hlive := List.not_of_lt_findIdx hn
    rw [live_natCast, List.getElem?_eq_getElem (by omega)]
    intro hnone
    rw [join_some] at hnone
    rw [hnone] at hlive
    cases hlive

/-- A new object is at the lowest free descriptor. The vector is longer if that was its end. -/
theorem createHandle_eq (t : HandleTable) :
    t.createHandle = (t.freeSlot,
      { mFiles := if t.freeSlot < t.mFiles.length
          then t.mFiles.set t.freeSlot (some ⟨t.nextAddress, {}⟩)
          else t.mFiles ++ [some ⟨t.nextAddress, {}⟩]
        nextAddress := t.nextAddress + 1 }) := by
  have hle : t.mFiles.findIdx isNone ≤ t.mFiles.length := List.findIdx_le_length
  have hslot : t.freeSlot = t.mFiles.findIdx isNone := Nat.min_eq_left hle
  unfold createHandle
  dsimp only
  by_cases hfound : t.mFiles.findIdx isNone < t.mFiles.length
  · rw [if_pos hfound, hslot, if_pos hfound]
  · rw [if_neg hfound, hslot, if_neg hfound, show t.mFiles.findIdx isNone = t.mFiles.length by omega]

/-- The slot of the new object, filled by its creator. -/
theorem fill_createHandle (t : HandleTable) (file : File) :
    t.createHandle.2.fill t.freeSlot file =
      { mFiles := if t.freeSlot < t.mFiles.length
          then t.mFiles.set t.freeSlot (some ⟨t.nextAddress, file⟩)
          else t.mFiles ++ [some ⟨t.nextAddress, file⟩]
        nextAddress := t.nextAddress + 1 } := by
  have hle : t.freeSlot ≤ t.mFiles.length := Nat.min_le_right _ _
  rw [createHandle_eq]
  unfold fill
  dsimp only
  by_cases hlt : t.freeSlot < t.mFiles.length
  · rw [if_pos hlt, if_pos hlt, List.modify_eq_set_get _ (by simpa using hlt), List.set_set]
    simp
  have hend : t.freeSlot = t.mFiles.length := by omega
  rw [if_neg hlt, if_neg hlt, hend, List.modify_eq_set_get _ (by simp), List.set_append_right _ _ le_rfl]
  simp

theorem live_fill_createHandle (t : HandleTable) (file : File) :
    (t.createHandle.2.fill t.freeSlot file).live
      = t.live.set t.freeSlot (some ⟨t.nextAddress, file⟩) := by
  rw [fill_createHandle]
  by_cases hlt : t.freeSlot < t.mFiles.length
  · rw [if_pos hlt]
    exact live_set hlt rfl
  have hend : t.freeSlot = t.mFiles.length := by
    have hle : t.freeSlot ≤ t.mFiles.length := Nat.min_le_right _ _
    omega
  rw [if_neg hlt, hend]
  exact live_append

theorem slotAt_of_lt (h : t.mFiles[d]? = some slot) : t.slotAt d = .ok slot := by
  unfold slotAt
  rw [if_neg (by omega), Int.toNat_natCast, h]

/-- The vector of a table that has lost the file it was given last. -/
theorem deleteHandle_fill_createHandle (t : HandleTable) (file : File) :
    (t.createHandle.2.fill t.freeSlot file).deleteHandle t.freeSlot = .ok
      { mFiles := if t.freeSlot < t.mFiles.length then t.mFiles else t.mFiles ++ [none]
        nextAddress := t.nextAddress + 1 } := by
  have hle : t.freeSlot ≤ t.mFiles.length := Nat.min_le_right _ _
  have hfree := (freeSlot_lowest t).free
  rw [fill_createHandle]
  by_cases hlt : t.freeSlot < t.mFiles.length
  · rw [if_pos hlt, if_pos hlt, deleteHandle, slotAt_of_lt (List.getElem?_set_self hlt)]
    have hnull : t.mFiles[t.freeSlot] = none := by
      rwa [live_natCast, List.getElem?_eq_getElem hlt, join_some] at hfree
    simp only [Outcome.ok_bind, Int.toNat_natCast, List.set_set]
    rw [← hnull, List.set_getElem_self]
    rfl
  · have hend : t.freeSlot = t.mFiles.length := by omega
    rw [if_neg hlt, if_neg hlt, hend, deleteHandle, slotAt_of_lt List.getElem?_concat_length]
    simp only [Outcome.ok_bind, Int.toNat_natCast, List.set_append_right _ _ le_rfl, Nat.sub_self]
    rfl

/-- To the callers it is the table before. -/
theorem live_failed (t : HandleTable) (next : Nat) :
    live { mFiles := if t.freeSlot < t.mFiles.length then t.mFiles else t.mFiles ++ [none]
           nextAddress := next } = t.live := by
  by_cases hlt : t.freeSlot < t.mFiles.length
  · rw [if_pos hlt]
    rfl
  rw [if_neg hlt, live_append]
  funext d
  unfold FileMap.set
  split
  · next heq => rw [live_of_length_le heq.ge]
  · rfl

theorem fill_fill (t : HandleTable) (d : Nat) (file file' : File) :
    (t.fill d file).fill d file' = t.fill d file' := by
  unfold fill
  rw [List.modify_modify_eq]
  congr 2
  funext ptr
  cases ptr <;> rfl

theorem deleteHandle_eq_ok {d : Int} {t' : HandleTable} (h : t.deleteHandle d = .ok t') :
    0 ≤ d ∧ d < t.mFiles.length ∧ t' = { t with mFiles := t.mFiles.set d.toNat none } := by
  unfold deleteHandle at h
  obtain ⟨slot, hslot, h⟩ := Outcome.bind_eq_ok.1 h
  unfold slotAt at hslot
  split at hslot
  · cases hslot
  split at hslot
  · cases hslot
  rename_i hneg slot' hget
  have hlt := (List.getElem?_eq_some_iff.1 hget).1
  exact ⟨by omega, by omega, (Except.ok.inj h).symm⟩

theorem live_deleteHandle {d : Int} {t' : HandleTable} (h : t.deleteHandle d = .ok t') :
    t'.live = t.live.set d none ∧ t'.nextAddress = t.nextAddress := by
  obtain ⟨hnonneg, hlt, rfl⟩ := deleteHandle_eq_ok h
  obtain ⟨n, rfl⟩ := Int.eq_ofNat_of_zero_le hnonneg
  exact ⟨live_set (by omega) rfl, rfl⟩

end HandleTable

/-! ## What open does -/

variable {m : Mounted} {t : HandleTable} {handle : Nat} {file : File} {path : List Char}
  {flags : UInt32}

/-- The ends of `open` once the handle is there: it deletes the handle or fills it. -/
inductive OpenEnd (t : HandleTable) (handle : Nat) : Outcome Posix → Prop
  | fails (errno : Int) : OpenEnd t handle (failWith t handle errno)
  | opens (file : File) (hopened : file.isOpened = true) :
      OpenEnd t handle (.ok (.ok handle, t.fill handle file))

theorem openFound_end : OpenEnd t handle (openFound m t handle file flags) := by
  unfold openFound
  dsimp only
  split
  · split
    · exact .fails _
    · split
      · exact .fails _
      · split
        · exact .fails _
        · exact .opens _ rfl
  · split
    · exact .fails _
    · split
      · exact .opens _ rfl
      · exact .fails _

/-- The table that `openPath` hands on has the same handle, filled. -/
theorem openPath_end (handle : Nat) (path : List Char) (flags : UInt32) :
    ∃ file, OpenEnd (t.fill handle file) handle (openPath m t handle path flags) := by
  refine ⟨{ guestName := path, hostName := m.hostName }, ?_⟩
  unfold openPath
  dsimp only
  split
  · split
    · exact .fails _
    · split
      · exact .fails _
      · exact openFound_end
  · split
    · exact .fails _
    · exact openFound_end

/-- What `open` leaves behind: nothing changed, the handle gone again, or an open file. -/
theorem posixOpen_cases {result : Except Int Int} {t' : HandleTable}
    (h : posixOpen m t path flags = .ok (result, t')) :
    (∃ errno, result = .error errno ∧ t' = t) ∨
      (∃ errno, result = .error errno ∧ t' =
        { mFiles := if t.freeSlot < t.mFiles.length then t.mFiles else t.mFiles ++ [none]
          nextAddress := t.nextAddress + 1 }) ∨
      ∃ file, result = .ok t.freeSlot ∧ file.isOpened = true ∧
        t' = t.createHandle.2.fill t.freeSlot file := by
  have hcreate : t.createHandle = (t.freeSlot, t.createHandle.2) := by
    rw [HandleTable.createHandle_eq]
  unfold posixOpen at h
  dsimp only at h
  split at h
  · cases h
    exact .inl ⟨_, rfl, rfl⟩
  split at h
  · cases h
    exact .inl ⟨_, rfl, rfl⟩
  rw [hcreate] at h
  dsimp only at h
  split at h
  · obtain ⟨object, -, h⟩ := Outcome.bind_eq_ok.1 h
    cases h
    exact .inr (.inr ⟨_, rfl, rfl, rfl⟩)
  obtain ⟨file, hend⟩ := openPath_end (m := m) (t := t.createHandle.2) t.freeSlot path flags
  generalize openPath m t.createHandle.2 t.freeSlot path flags = r at h hend
  cases hend with
  | fails errno =>
    unfold failWith at h
    rw [HandleTable.deleteHandle_fill_createHandle, Outcome.ok_bind] at h
    cases h
    exact .inr (.inl ⟨errno, rfl, rfl⟩)
  | opens file' hopened =>
    cases h
    exact .inr (.inr ⟨file', rfl, hopened, HandleTable.fill_fill _ _ _ _⟩)

/-! ## The getters -/

/-- The null pointer of a closed descriptor. -/
def HandleTable.EmptySlot (t : HandleTable) (d : Int) : Prop :=
  0 ≤ d ∧ t.mFiles[d.toNat]? = some none

/-- Every getter returns the live file, if it is of the right type. -/
def HandleTable.GettersHold (t : HandleTable) (d : Int) : Prop :=
  t.getFile d = .ok (t.live d) ∧ t.getSocket d = .ok (t.live.ofType .socket d) ∧
    t.getEpoll d = .ok (t.live.ofType .epoll d) ∧
    t.getResolver d = .ok (t.live.ofType .resolver d)

theorem HandleTable.getFile_eq (t : HandleTable) (d : Int) : t.getFile d = .ok (t.live d) := by
  unfold getFile
  split
  · next hout =>
    rcases hout with hneg | hlen
    · rw [live_neg hneg]
    · rw [live_of_length_le hlen]
  · next hin =>
    obtain ⟨n, rfl⟩ := Int.eq_ofNat_of_zero_le (a := d) (by omega)
    have hget : t.mFiles[n]? = some t.mFiles[n] := List.getElem?_eq_getElem (by omega)
    rw [slotAt_of_lt hget, live_natCast, hget]
    rfl

/-- Inside of the vector a slot is a live file or a null pointer. -/
theorem HandleTable.exists_slot {d : Int} (hin : ¬(d < 0 ∨ d ≥ t.mFiles.length)) :
    t.slotAt d = .ok (t.live d) ∧ (t.EmptySlot d ↔ t.live d = none) := by
  obtain ⟨n, rfl⟩ := Int.eq_ofNat_of_zero_le (a := d) (by omega)
  have hget : t.mFiles[n]? = some t.mFiles[n] := List.getElem?_eq_getElem (by omega)
  have hlive : t.live n = t.mFiles[n] := by
    rw [live_natCast, hget]
    rfl
  refine ⟨?_, ?_⟩
  · rw [slotAt_of_lt hget, hlive]
  · unfold EmptySlot
    rw [hlive, Int.toNat_natCast, hget]
    exact ⟨fun h => Option.some.inj h.2, fun h => ⟨by omega, congrArg some h⟩⟩

/-- Outside of it there is neither. -/
theorem HandleTable.live_outside {d : Int} (hout : d < 0 ∨ d ≥ t.mFiles.length) :
    t.live d = none ∧ ¬t.EmptySlot d := by
  rcases hout with hneg | hlen
  · exact ⟨live_neg hneg, fun h => absurd h.1 (by omega)⟩
  · refine ⟨live_of_length_le hlen, fun h => ?_⟩
    obtain ⟨n, rfl⟩ := Int.eq_ofNat_of_zero_le h.1
    have hget := h.2
    rw [Int.toNat_natCast, List.getElem?_eq_none (by omega)] at hget
    cases hget

theorem HandleTable.getSocket_eq (t : HandleTable) (d : Int) :
    t.getSocket d = .ok (t.live.ofType .socket d) := by
  unfold getSocket FileMap.ofType
  split
  · next hout =>
    rw [(live_outside hout).1]
    rfl
  rename_i hin
  rw [(exists_slot hin).1, Outcome.ok_bind]
  cases t.live d with
  | none => rfl
  | some ptr =>
    by_cases htype : ptr.file.type = .socket
    · simp [htype, Option.filter]
      rfl
    · simp [htype, Option.filter]
      rfl

/-- The pointer that is not checked is the null pointer of a closed descriptor, or none. -/
theorem HandleTable.getOfType_eq_iff (type : FileType) (t : HandleTable) (d : Int) :
    t.getOfType type d = .ok (t.live.ofType type d) ↔ ¬t.EmptySlot d := by
  unfold getOfType FileMap.ofType
  split
  · next hout =>
    obtain ⟨hnone, hempty⟩ := live_outside hout
    rw [hnone]
    exact iff_of_true rfl hempty
  · next hin =>
    obtain ⟨hslot, hempty⟩ := exists_slot hin
    rw [hslot, Outcome.ok_bind, hempty]
    cases t.live d with
    | none => exact iff_of_false (by simp [deref]) (by simp)
    | some ptr =>
      refine iff_of_true ?_ (by simp)
      by_cases htype : ptr.file.type = type
      · simp [deref, htype, Option.filter]
      · simp [deref, htype, Option.filter]

theorem HandleTable.gettersHold_iff (t : HandleTable) (d : Int) :
    t.GettersHold d ↔ ¬t.EmptySlot d := by
  refine ⟨fun h => (getOfType_eq_iff .epoll t d).1 h.2.2.1, fun h => ?_⟩
  exact ⟨t.getFile_eq d, t.getSocket_eq d, (getOfType_eq_iff .epoll t d).2 h,
    (getOfType_eq_iff .resolver t d).2 h⟩

/-! ## What close does -/

theorem HandleTable.live_fill (t : HandleTable) {n : Nat} {d : Int} (file : File) (hd : d ≠ n) :
    (t.fill n file).live d = t.live d := by
  by_cases hneg : d < 0
  · rw [live_neg hneg, live_neg hneg]
  obtain ⟨k, rfl⟩ := Int.eq_ofNat_of_zero_le (Int.not_lt.1 hneg)
  have hne : n ≠ k := by omega
  have hget : (t.fill n file).mFiles[k]? = t.mFiles[k]? := by
    unfold fill
    simp [hne]
  rw [live_natCast, live_natCast, hget]

theorem posixClose_cases {fd : Int} {result : Except Int Int} {t' : HandleTable}
    (h : posixClose t fd = .ok (result, t')) :
    (t.live fd = none ∧ result = .error POSIX_EBADF ∧ t' = t) ∨
      (t.live fd ≠ none ∧ fd < 3 ∧ result = .error POSIX_EPERM ∧ t' = t) ∨
      (t.live fd ≠ none ∧ 3 ≤ fd ∧ result = .ok 0 ∧ t'.live = t.live.set fd none ∧
        t'.nextAddress = t.nextAddress) := by
  unfold posixClose at h
  rw [HandleTable.getFile_eq, Outcome.ok_bind] at h
  cases hlive : t.live fd with
  | none =>
    rw [hlive] at h
    cases h
    exact .inl ⟨rfl, rfl, rfl⟩
  | some ptr =>
    rw [hlive] at h
    dsimp only at h
    split at h
    · next hstd =>
      cases h
      exact .inr (.inl ⟨by simp, hstd, rfl, rfl⟩)
    rename_i hstd
    obtain ⟨-, -, h⟩ := Outcome.bind_eq_ok.1 h
    obtain ⟨t₁, hdelete, h⟩ := Outcome.bind_eq_ok.1 h
    cases h
    obtain ⟨hlive₁, hnext⟩ := HandleTable.live_deleteHandle hdelete
    refine .inr (.inr ⟨by simp, by omega, rfl, ?_, hnext⟩)
    rw [hlive₁]
    funext d
    unfold FileMap.set
    split
    · rfl
    · next hne => rw [HandleTable.live_fill _ _ (by omega)]

/-! ## Runs -/

/-- The calls of the table's users. The creator of a file fills it, whatever its type. -/
inductive TableAction where
  | create (file : File)
  | delete (d : Int)
  | openFile (m : Mounted) (path : List Char) (flags : UInt32)
  | close (fd : Int)

/-- The result of a call is its event. One that throws or faults ends the run. -/
def HandleTable.step (t : HandleTable) : TableAction → Option (HandleTable × List (Except Int Int))
  | .create file => some (t.createHandle.2.fill t.createHandle.1 file, [.ok t.createHandle.1])
  | .delete d =>
    match t.deleteHandle d with
    | .ok t' => some (t', [.ok 0])
    | .error _ => none
  | .openFile m path flags =>
    match posixOpen m t path flags with
    | .ok (result, t') => some (t', [result])
    | .error _ => none
  | .close fd =>
    match posixClose t fd with
    | .ok (result, t') => some (t', [result])
    | .error _ => none

/-- The calls on the map: files are added at the lowest free descriptor and taken away, and what
fails changes nothing. -/
inductive MapStep (m : FileMap) : TableAction → Except Int Int → FileMap → Prop
  | create {file : File} {d : Int} {ptr : FilePtr} : m.LowestFree d → m.New ptr → ptr.file = file →
      MapStep m (.create file) (.ok d) (m.set d (some ptr))
  | delete {d : Int} : MapStep m (.delete d) (.ok 0) (m.set d none)
  | openFails {mounted : Mounted} {path : List Char} {flags : UInt32} {errno : Int} :
      MapStep m (.openFile mounted path flags) (.error errno) m
  | opens {mounted : Mounted} {path : List Char} {flags : UInt32} {d : Int} {ptr : FilePtr} :
      m.LowestFree d → m.New ptr → ptr.file.isOpened = true →
      MapStep m (.openFile mounted path flags) (.ok d) (m.set d (some ptr))
  | closeUnknown {fd : Int} : m fd = none → MapStep m (.close fd) (.error POSIX_EBADF) m
  | closeStd {fd : Int} : m fd ≠ none → fd < 3 → MapStep m (.close fd) (.error POSIX_EPERM) m
  | closes {fd : Int} : m fd ≠ none → 3 ≤ fd → MapStep m (.close fd) (.ok 0) (m.set fd none)

/-- Addresses are given once. -/
structure HandleTable.Sound (t : HandleTable) : Prop where
  address_lt (d : Int) (ptr : FilePtr) : t.live d = some ptr → ptr.address < t.nextAddress
  own : t.live.OwnFiles

namespace HandleTable.Sound

theorem new (h : t.Sound) (file : File) : t.live.New ⟨t.nextAddress, file⟩ :=
  fun d ptr hptr => (h.address_lt d ptr hptr).ne

theorem set_none {d : Int} {t' : HandleTable} (h : t.Sound) (hlive : t'.live = t.live.set d none)
    (hnext : t'.nextAddress = t.nextAddress) : t'.Sound := by
  have hold (d' : Int) (ptr : FilePtr) (hptr : t'.live d' = some ptr) : t.live d' = some ptr := by
    rw [hlive, FileMap.set] at hptr
    split at hptr
    · cases hptr
    · exact hptr
  refine ⟨fun d' ptr hptr => ?_, fun d₁ d₂ ptr₁ ptr₂ h₁ h₂ => h.own _ _ _ _ (hold _ _ h₁) (hold _ _ h₂)⟩
  rw [hnext]
  exact h.address_lt d' ptr (hold d' ptr hptr)

theorem of_live {t' : HandleTable} (h : t.Sound) (hlive : t'.live = t.live)
    (hnext : t.nextAddress ≤ t'.nextAddress) : t'.Sound := by
  refine ⟨fun d ptr hptr => ?_, ?_⟩
  · rw [hlive] at hptr
    exact (h.address_lt d ptr hptr).trans_le hnext
  · rw [hlive]
    exact h.own

/-- A new object shares its address with no other. -/
theorem fill_createHandle (h : t.Sound) (file : File) :
    (t.createHandle.2.fill t.freeSlot file).Sound := by
  have hlive := live_fill_createHandle t file
  have hnext : (t.createHandle.2.fill t.freeSlot file).nextAddress = t.nextAddress + 1 := by
    rw [HandleTable.fill_createHandle]
  -- A live file is the new one at its descriptor, or an old one elsewhere.
  have hcases (d : Int) (ptr : FilePtr)
      (hptr : (t.createHandle.2.fill t.freeSlot file).live d = some ptr) :
      (d = t.freeSlot ∧ ptr.address = t.nextAddress) ∨
        (t.live d = some ptr ∧ ptr.address < t.nextAddress) := by
    rw [hlive, FileMap.set] at hptr
    split at hptr
    · next heq =>
      cases hptr
      exact .inl ⟨heq, rfl⟩
    · exact .inr ⟨hptr, h.address_lt d ptr hptr⟩
  refine ⟨fun d ptr hptr => ?_, fun d₁ d₂ ptr₁ ptr₂ h₁ h₂ heq => ?_⟩
  · rw [hnext]
    rcases hcases d ptr hptr with ⟨-, haddress⟩ | ⟨-, hlt⟩
    · omega
    · omega
  · rcases hcases d₁ ptr₁ h₁ with ⟨hd₁, ha₁⟩ | ⟨hold₁, hlt₁⟩ <;>
      rcases hcases d₂ ptr₂ h₂ with ⟨hd₂, ha₂⟩ | ⟨hold₂, hlt₂⟩
    · rw [hd₁, hd₂]
    · omega
    · omega
    · exact h.own _ _ _ _ hold₁ hold₂ heq

end HandleTable.Sound

theorem HandleTable.createHandle_fst (t : HandleTable) : t.createHandle.1 = t.freeSlot := by
  rw [createHandle_eq]

theorem HandleTable.createStdHandles_sound : (createStdHandles {}).Sound := by
  have hsetup {t : HandleTable} (h : t.Sound) (path : String) (device : Nat) :
      (t.setup path device).Sound := by
    unfold setup
    rw [show t.createHandle = (t.freeSlot, t.createHandle.2) by rw [createHandle_eq]]
    exact h.fill_createHandle _
  have hempty : (HandleTable.mk [] 0).Sound := by
    have hnone (d : Int) : (HandleTable.mk [] 0).live d = none := by
      unfold live
      split <;> rfl
    refine ⟨fun d ptr hptr => ?_, fun d _ ptr _ hptr => ?_⟩
    · rw [hnone] at hptr
      cases hptr
    · rw [hnone] at hptr
      cases hptr
  exact hsetup (hsetup (hsetup hempty _ _) _ _) _ _

/-- A step of the table is the step of the map. -/
theorem HandleTable.Sound.step {a : TableAction} {t' : HandleTable} {es : List (Except Int Int)}
    (h : t.Sound) (hstep : t.step a = some (t', es)) :
    (∃ r, es = [r] ∧ MapStep t.live a r t'.live) ∧ t'.Sound := by
  cases a with
  | create file =>
    simp only [HandleTable.step, HandleTable.createHandle_fst, Option.some.injEq, Prod.mk.injEq] at hstep
    obtain ⟨rfl, rfl⟩ := hstep
    refine ⟨⟨_, rfl, ?_⟩, h.fill_createHandle file⟩
    rw [HandleTable.live_fill_createHandle]
    exact .create t.freeSlot_lowest (h.new file) rfl
  | delete d =>
    simp only [HandleTable.step] at hstep
    split at hstep
    · next t₁ hdelete =>
      simp only [Option.some.injEq, Prod.mk.injEq] at hstep
      obtain ⟨rfl, rfl⟩ := hstep
      obtain ⟨hlive, hnext⟩ := HandleTable.live_deleteHandle hdelete
      refine ⟨⟨_, rfl, ?_⟩, h.set_none hlive hnext⟩
      rw [hlive]
      exact .delete
    · cases hstep
  | openFile m path flags =>
    simp only [HandleTable.step] at hstep
    split at hstep
    · next result t₁ hopen =>
      simp only [Option.some.injEq, Prod.mk.injEq] at hstep
      obtain ⟨rfl, rfl⟩ := hstep
      rcases posixOpen_cases hopen with ⟨errno, rfl, rfl⟩ | ⟨errno, rfl, rfl⟩ | ⟨file, rfl, hopened, rfl⟩
      · exact ⟨⟨_, rfl, .openFails⟩, h⟩
      · refine ⟨⟨_, rfl, ?_⟩, h.of_live (HandleTable.live_failed t _) (Nat.le_succ _)⟩
        rw [HandleTable.live_failed]
        exact .openFails
      · refine ⟨⟨_, rfl, ?_⟩, h.fill_createHandle file⟩
        rw [HandleTable.live_fill_createHandle]
        exact .opens t.freeSlot_lowest (h.new file) hopened
    · cases hstep
  | close fd =>
    simp only [HandleTable.step] at hstep
    split at hstep
    · next result t₁ hclose =>
      simp only [Option.some.injEq, Prod.mk.injEq] at hstep
      obtain ⟨rfl, rfl⟩ := hstep
      rcases posixClose_cases hclose with ⟨hnone, rfl, rfl⟩ | ⟨hsome, hstd, rfl, rfl⟩ |
        ⟨hsome, huser, rfl, hlive, hnext⟩
      · exact ⟨⟨_, rfl, .closeUnknown hnone⟩, h⟩
      · exact ⟨⟨_, rfl, .closeStd hsome hstd⟩, h⟩
      · refine ⟨⟨_, rfl, ?_⟩, h.set_none hlive hnext⟩
        rw [hlive]
        exact .closes hsome huser
    · cases hstep

abbrev TableReaches : HandleTable → List (Except Int Int) → Prop :=
  Reaches HandleTable.step (fun _ _ => True) (HandleTable.createStdHandles {})

theorem HandleTable.sound_of_reaches {events : List (Except Int Int)} (h : TableReaches t events) :
    t.Sound :=
  Reaches.invariant (P := fun t _ => t.Sound) HandleTable.createStdHandles_sound
    (fun _ _ _ _ _ hs _ hstep => (HandleTable.Sound.step hs hstep).2) h

/-- Every reachable table is a map to its callers, apart from two of the getters at the null
pointers that closed descriptors leave behind. -/
theorem handleTable_refines (t : HandleTable) (events : List (Except Int Int))
    (h : TableReaches t events) :
    t.live.OwnFiles ∧
      (∀ a t' es, t.step a = some (t', es) → ∃ r, es = [r] ∧ MapStep t.live a r t'.live) ∧
      (∀ m path flags errno t', posixOpen m t path flags = .ok (.error errno, t') →
        t'.live = t.live ∧ (t'.mFiles = t.mFiles ∨ none ∉ t.mFiles ∧ t'.mFiles = t.mFiles ++ [none])) ∧
      ∀ d, t.GettersHold d ↔ ¬t.EmptySlot d := by
  have hsound := HandleTable.sound_of_reaches h
  refine ⟨hsound.own, fun a t' es hstep => (hsound.step hstep).1, fun m path flags errno t' hopen => ?_,
    t.gettersHold_iff⟩
  rcases posixOpen_cases hopen with ⟨errno, -, rfl⟩ | ⟨errno, -, rfl⟩ | ⟨file, hok, -, -⟩
  · exact ⟨rfl, .inl rfl⟩
  · refine ⟨HandleTable.live_failed t _, ?_⟩
    by_cases hlt : t.freeSlot < t.mFiles.length
    · exact .inl (if_pos hlt)
    · refine .inr ⟨fun hnull => ?_, if_neg hlt⟩
      have hfull : t.mFiles.findIdx isNone < t.mFiles.length :=
        List.findIdx_lt_length_of_exists ⟨none, hnull, rfl⟩
      exact hlt (Nat.lt_of_le_of_lt (Nat.min_le_left _ _) hfull)
  · cases hok

/-- A file has been created and closed again. -/
theorem exists_closed : ∃ t events, TableReaches t events ∧ t.EmptySlot 3 ∧ ¬t.EmptySlot 2 :=
  ⟨_, _, (Reaches.start.step trivial (rfl : HandleTable.step _ (.create {}) = some (_, _))).step
    trivial (rfl : HandleTable.step _ (.close 3) = some (_, _)), ⟨by decide, rfl⟩,
    fun h => absurd h.2 (by decide)⟩

theorem handleTable_refines_closed :
    ∃ t events, TableReaches t events ∧ t.GettersHold 2 ∧ ¬t.GettersHold 3 := by
  obtain ⟨t, events, hreach, hempty, hfull⟩ := exists_closed
  obtain ⟨-, -, -, hgetters⟩ := handleTable_refines t events hreach
  exact ⟨t, events, hreach, (hgetters 2).2 hfull, fun h => (hgetters 3).1 h hempty⟩

/-- `GetEpoll` of the descriptor of a closed file follows the null pointer. -/
theorem handleTable_nullPointer :
    (¬∀ t events, TableReaches t events → ∀ d, t.GettersHold d) ∧
      ∃ t events, TableReaches t events ∧ t.getEpoll 3 = .error .undefined := by
  obtain ⟨t, events, hreach, hempty, -⟩ := exists_closed
  refine ⟨fun hall => (t.gettersHold_iff 3).1 (hall t events hreach 3) hempty, t, events, hreach, ?_⟩
  have hin : ¬((3 : Int) < 0 ∨ 3 ≥ (t.mFiles.length : Int)) := by
    have hlt := (List.getElem?_eq_some_iff.1 hempty.2).1
    omega
  obtain ⟨hslot, hiff⟩ := HandleTable.exists_slot hin
  unfold HandleTable.getEpoll HandleTable.getOfType
  rw [if_neg hin, hslot, hiff.1 hempty]
  rfl

end FileSys
