import Pnacl.Memory
import Mathlib.Logic.Function.Basic

/-!
# The file system builtins

`pn_filesystem.h` and the FDIO and FILENAME builtins on top of it. The host answers the system calls (`PNHostFs`); `fd_map` maps a
descriptor of the guest to one of the host. Without `--filesystem-access` the map holds only the standard descriptors
(`FsReachable.stdFds`), and a call depends on nothing else of the host unless it is FILENAME_STAT, the one builtin that does not look
at the flag (`filesystem_hidden_iff`).
-/

namespace Pnacl

open Lib

/-- `PN_MAX_FDS`. -/
def PN_MAX_FDS : Nat := 1000

/-- `PN_FAKE_GETCWD`. -/
def PN_FAKE_GETCWD : List UInt8 := "/home".toUTF8.data.toList

/-- The values of `PNErrno` that the code names, with `PN_EINVAL`. -/
def PN_ENOENT : Nat := 2
def PN_EBADF : Nat := 9
def PN_EACCES : Nat := 13
def PN_EMFILE : Nat := 24
def PN_ESPIPE : Nat := 29
def PN_ERANGE : Nat := 34
def PN_ENOSYS : Nat := 38

/-- `PN_FOREACH_ERRNO`. -/
def pnErrnos : List Nat :=
  [1, 2, 3, 4, 5, 6, 7, 8, 9, 10, 11, 12, 13, 14, 16, 17, 18, 19, 20, 21, 22, 23, 24, 25, 27, 28, 29, 30, 31, 32, 34, 36, 38, 122, 110]

/-- `pn_from_errno`. The error numbers of the host are those of Linux, which `PNErrno` uses too. -/
def pnFromErrno (e : Nat) : Except Stop Nat := if e ∈ pnErrnos then .ok e else pnFatal "Unknown errno: %d\n" [e]

/-- `struct stat`. -/
structure PNStat where
  dev : Nat
  ino : Nat
  mode : Nat
  nlink : Nat
  uid : Nat
  gid : Nat
  rdev : Nat
  size : Nat
  blksize : Nat
  blocks : Nat
  atime : Nat
  atimNsec : Nat
  mtime : Nat
  mtimNsec : Nat
  ctime : Nat
  ctimNsec : Nat
deriving Repr, DecidableEq

/-- The answers of the host to the next system call. A call that fails gives `errno`. -/
structure PNHostFs where
  close : Int → Option Nat
  read : Int → Nat → Except Nat (List UInt8)
  lseek : Int → Nat → Nat → Except Nat Nat
  write : Int → List UInt8 → Int
  fstat : Int → Except Nat PNStat
  isatty : Int → Int
  getcwd : Nat → Except Nat (List UInt8)
  openPath : List UInt8 → Nat → Nat → Except Nat Int
  access : List UInt8 → Nat → Option Nat
  readlink : List UInt8 → Nat → Except Nat (List UInt8)
  stat : List UInt8 → Except Nat PNStat

/-- The guest's side: its memory, and the host descriptor of each of its own. -/
structure PNFsState where
  memory : PNMemory
  fdMap : Nat → Int

/-! ## Memory -/

/-- `memcpy` of host bytes to a pointer that was checked. -/
def PNFsState.store (s : PNFsState) (p : Nat) (bytes : List UInt8) : PNFsState :=
  { s with memory := { s.memory with
      data := fun i => if p ≤ i ∧ i < p + bytes.length then bytes.getD (i - p) 0 else s.memory.data i } }

/-- The `n` bytes at `p`. -/
def PNMemory.bytes (m : PNMemory) (p n : Nat) : List UInt8 := (List.range n).map fun i => m.data (p + i)

/-- `pn_memory_write_u32`. -/
def PNFsState.writeU32 (s : PNFsState) (p value : Nat) : Except Stop PNFsState := do
  let memory ← pnMemoryWrite s.memory 4 p (value % 2 ^ 32)
  .ok { s with memory := memory }

/-- The loop of `pn_memory_check_cstr`: the end of the string. -/
def cstrEnd (memory : PNMemory) : Nat → Nat → Except Stop Nat
  | 0, _ => .error .fuel
  | fuel + 1, p => do
    let c ← pnMemoryRead memory 1 p
    if c = 0 then .ok p else cstrEnd memory fuel ((p + 1) % 2 ^ 32)

/-- `pn_memory_check_cstr`, with the string. -/
def pnMemoryCheckCstr (memory : PNMemory) (p : Nat) : Except Stop (List UInt8) := do
  let e ← cstrEnd memory (2 ^ 32 + 1) p
  .ok (memory.bytes p (e - p))

/-- The fields of the guest's `stat`: offset, size and value. -/
def PNStat.fields (buf : PNStat) : List (Nat × Nat × Nat) := [
  (0, 8, buf.dev), (8, 8, buf.ino), (16, 4, buf.mode), (20, 4, buf.nlink), (24, 4, buf.uid), (28, 4, buf.gid), (32, 8, buf.rdev),
  (40, 8, buf.size), (48, 4, buf.blksize), (52, 4, buf.blocks), (56, 8, buf.atime), (64, 8, buf.atimNsec), (72, 8, buf.mtime),
  (80, 8, buf.mtimNsec), (88, 8, buf.ctime), (96, 8, buf.ctimNsec)]

/-- Write fields in order. -/
def writeFields (statP : Nat) : List (Nat × Nat × Nat) → PNMemory → Except Stop PNMemory
  | [], memory => .ok memory
  | (offset, n, value) :: rest, memory => do
    let memory ← pnMemoryWrite memory n ((statP + offset) % 2 ^ 32) (value % 2 ^ (8 * n))
    writeFields statP rest memory

/-- `pn_filesystem_write_stat_buf`. -/
def pnFilesystemWriteStatBuf (s : PNFsState) (statP : Nat) (buf : PNStat) : Except Stop PNFsState := do
  let memory ← writeFields statP buf.fields s.memory
  .ok { s with memory := memory }

/-! ## `pn_filesystem.h` -/

/-- What a builtin returns, the `errno`, and the state behind it. -/
abbrev PNFsResult := Except Stop (Nat × PNFsState)

/-- `return pn_from_errno(errno)`. -/
def PNFsState.fail (s : PNFsState) (e : Nat) : PNFsResult := do
  let r ← pnFromErrno e
  .ok (r, s)

/-- `pn_filesystem_get_host_fd`; `none` is EBADF. -/
def pnFilesystemGetHostFd (s : PNFsState) (fd : Nat) : Option Int :=
  if PN_MAX_FDS ≤ fd then none else if s.fdMap fd = -1 then none else some (s.fdMap fd)

section

variable (access : Bool) (host : PNHostFs) (s : PNFsState)

def pnFilesystemFdioClose (fd : Nat) : PNFsResult :=
  match pnFilesystemGetHostFd s fd with
  | none => .ok (PN_EBADF, s)
  | some hostFd =>
    if access then
      match host.close hostFd with
      | none => .ok (0, { s with fdMap := Function.update s.fdMap fd (-1) })
      | some e => s.fail e
    else do
      pnCheck (hostFd ≤ 2) "host_fd <= 2"
      .ok (0, { s with fdMap := Function.update s.fdMap fd (-1) })

def pnFilesystemFdioRead (fd bufP count nreadP : Nat) : PNFsResult :=
  match pnFilesystemGetHostFd s fd with
  | none => .ok (PN_EBADF, s)
  | some hostFd => do
    pnMemoryCheck s.memory bufP count
    if !access ∧ hostFd ≠ 0 then .ok (PN_EINVAL, s)
    else
      match host.read hostFd count with
      | .error e => s.fail e
      | .ok bytes => do
        let s ← (s.store bufP bytes).writeU32 nreadP bytes.length
        .ok (0, s)

def pnFilesystemFdioSeek (fd offset whence newOffsetP : Nat) : PNFsResult :=
  match pnFilesystemGetHostFd s fd with
  | none => .ok (PN_EBADF, s)
  | some hostFd =>
    if access then
      match host.lseek hostFd offset whence with
      | .error e => s.fail e
      | .ok newOffset => do
        let s ← s.writeU32 newOffsetP newOffset
        .ok (0, s)
    else .ok (PN_ESPIPE, s)

def pnFilesystemFdioWrite (fd bufP count nwroteP : Nat) : PNFsResult :=
  match pnFilesystemGetHostFd s fd with
  | none => .ok (PN_EBADF, s)
  | some hostFd => do
    pnMemoryCheck s.memory bufP count
    if !access ∧ hostFd ≠ 1 ∧ hostFd ≠ 2 then .ok (PN_EBADF, s)
    else do
      -- the result is not looked at: a failure is the count -1
      let nwrote := host.write hostFd (s.memory.bytes bufP count)
      let s ← s.writeU32 nwroteP (nwrote % 2 ^ 32).toNat
      .ok (0, s)

def pnFilesystemFdioFstat (fd statP : Nat) : PNFsResult :=
  match pnFilesystemGetHostFd s fd with
  | none => .ok (PN_EBADF, s)
  | some hostFd =>
    match host.fstat hostFd with
    | .error e => s.fail e
    | .ok buf => do
      let s ← pnFilesystemWriteStatBuf s statP buf
      .ok (0, s)

def pnFilesystemFdioIsatty (fd resultP : Nat) : PNFsResult :=
  match pnFilesystemGetHostFd s fd with
  | none => .ok (PN_EBADF, s)
  | some hostFd => do
    let s ← s.writeU32 resultP (host.isatty hostFd % 2 ^ 32).toNat
    .ok (0, s)

def pnFilesystemFilenameGetcwd (pathnameP len : Nat) : PNFsResult := do
  pnMemoryCheck s.memory pathnameP len
  if access then
    match host.getcwd len with
    | .error e => s.fail e
    | .ok path => .ok (0, s.store pathnameP path)
  else if PN_FAKE_GETCWD.length + 1 > len then .ok (PN_ERANGE, s)
  else .ok (0, s.store pathnameP (PN_FAKE_GETCWD ++ [0]))

def pnFilesystemFilenameOpen (pathnameP oflag cmode newfdP : Nat) : PNFsResult := do
  let pathname ← pnMemoryCheckCstr s.memory pathnameP
  if !access then .ok (PN_ENOENT, s)
  else
    match host.openPath pathname oflag cmode with
    | .error e => s.fail e
    | .ok hostFd =>
      match (List.range PN_MAX_FDS).find? fun fd => s.fdMap fd = -1 with
      | none => .ok (PN_EMFILE, s)
      | some fd => do
        let s ← PNFsState.writeU32 { s with fdMap := Function.update s.fdMap fd hostFd } newfdP fd
        .ok (0, s)

def pnFilesystemFilenameAccess (pathnameP amode : Nat) : PNFsResult := do
  let pathname ← pnMemoryCheckCstr s.memory pathnameP
  if !access then .ok (PN_ENOENT, s)
  else
    match host.access pathname amode with
    | some e => s.fail e
    | none => .ok (0, s)

def pnFilesystemFilenameReadlink (pathP bufP count nreadP : Nat) : PNFsResult := do
  let path ← pnMemoryCheckCstr s.memory pathP
  pnMemoryCheck s.memory bufP count
  if !access then .ok (PN_ENOENT, s)
  else
    match host.readlink path count with
    | .error e => s.fail e
    | .ok bytes => do
      let s ← (s.store bufP bytes).writeU32 nreadP bytes.length
      .ok (0, s)

/-- The flag is not read. -/
def pnFilesystemFilenameStat (pathnameP statP : Nat) : PNFsResult := do
  let pathname ← pnMemoryCheckCstr s.memory pathnameP
  match host.stat pathname with
  | .error e => s.fail e
  | .ok buf => do
    let s ← pnFilesystemWriteStatBuf s statP buf
    .ok (0, s)

end

/-! ## The builtins -/

/-- The builtins of FDIO and FILENAME. -/
inductive PNFsBuiltin where
  | fdioClose | fdioDup | fdioDup2 | fdioRead | fdioWrite | fdioSeek | fdioFstat | fdioGetdents | fdioFchdir | fdioFchmod
  | fdioFsync | fdioFdatasync | fdioFtruncate | fdioIsatty
  | filenameOpen | filenameStat | filenameMkdir | filenameRmdir | filenameChdir | filenameGetcwd | filenameUnlink
  | filenameTruncate | filenameLstat | filenameLink | filenameRename | filenameSymlink | filenameChmod | filenameAccess
  | filenameReadlink | filenameUtimes
deriving Repr, DecidableEq

/-- `pn_builtin_NACL_IRT_FDIO_*` and `pn_builtin_NACL_IRT_FILENAME_*`; the others are stubs. -/
def PNFsBuiltin.exec (access : Bool) (host : PNHostFs) (b : PNFsBuiltin) (args : List PNRuntimeValue) (s : PNFsState) : PNFsResult :=
  match b with
  | .fdioClose => do
    pnCheck (args.length = 1) "num_args == 1"
    pnFilesystemFdioClose access host s (pnArg args 0 4)
  | .fdioRead => do
    pnCheck (args.length = 4) "num_args == 4"
    pnFilesystemFdioRead access host s (pnArg args 0 4) (pnArg args 1 4) (pnArg args 2 4) (pnArg args 3 4)
  | .fdioSeek => do
    pnCheck (args.length = 4) "num_args == 4"
    pnFilesystemFdioSeek access host s (pnArg args 0 4) (pnArg args 1 4) (pnArg args 2 4) (pnArg args 3 4)
  | .fdioWrite => do
    pnCheck (args.length = 4) "num_args == 4"
    pnFilesystemFdioWrite access host s (pnArg args 0 4) (pnArg args 1 4) (pnArg args 2 4) (pnArg args 3 4)
  | .fdioFstat => do
    pnCheck (args.length = 2) "num_args == 2"
    pnFilesystemFdioFstat host s (pnArg args 0 4) (pnArg args 1 4)
  | .fdioIsatty => do
    pnCheck (args.length = 2) "num_args == 2"
    pnFilesystemFdioIsatty host s (pnArg args 0 4) (pnArg args 1 4)
  | .filenameGetcwd => do
    pnCheck (args.length = 2) "num_args == 2"
    pnFilesystemFilenameGetcwd access host s (pnArg args 0 4) (pnArg args 1 4)
  | .filenameOpen => do
    pnCheck (args.length = 4) "num_args == 4"
    pnFilesystemFilenameOpen access host s (pnArg args 0 4) (pnArg args 1 4) (pnArg args 2 4) (pnArg args 3 4)
  | .filenameAccess => do
    pnCheck (args.length = 2) "num_args == 2"
    pnFilesystemFilenameAccess access host s (pnArg args 0 4) (pnArg args 1 4)
  | .filenameReadlink => do
    pnCheck (args.length = 4) "num_args == 4"
    pnFilesystemFilenameReadlink access host s (pnArg args 0 4) (pnArg args 1 4) (pnArg args 2 4) (pnArg args 3 4)
  | .filenameStat => do
    pnCheck (args.length = 2) "num_args == 2"
    pnFilesystemFilenameStat host s (pnArg args 0 4) (pnArg args 1 4)
  | _ => .ok (PN_ENOSYS, s)

/-- `fd_map` after `pn_executor_init`. -/
def initialFdMap : Nat → Int := fun fd => if fd ≤ 2 then fd else -1

/-- The states of a guest that runs without file system access: it calls builtins, on a host that may answer anything, and changes
its memory. -/
inductive FsReachable : PNFsState → Prop where
  | init (memory : PNMemory) : FsReachable ⟨memory, initialFdMap⟩
  | guest {s : PNFsState} (memory : PNMemory) (h : FsReachable s) : FsReachable { s with memory := memory }
  | call {s s' : PNFsState} {r : Nat} (host : PNHostFs) (b : PNFsBuiltin) (args : List PNRuntimeValue) (h : FsReachable s)
      (hexec : b.exec false host args s = .ok (r, s')) : FsReachable s'

/-- The hosts answer alike for the descriptors 0, 1 and 2. -/
structure AgreeStd (host host' : PNHostFs) : Prop where
  close : ∀ fd, 0 ≤ fd → fd ≤ 2 → host.close fd = host'.close fd
  read : ∀ fd, 0 ≤ fd → fd ≤ 2 → host.read fd = host'.read fd
  lseek : ∀ fd, 0 ≤ fd → fd ≤ 2 → host.lseek fd = host'.lseek fd
  write : ∀ fd, 0 ≤ fd → fd ≤ 2 → host.write fd = host'.write fd
  fstat : ∀ fd, 0 ≤ fd → fd ≤ 2 → host.fstat fd = host'.fstat fd
  isatty : ∀ fd, 0 ≤ fd → fd ≤ 2 → host.isatty fd = host'.isatty fd

/-! ## Strings -/

/-- The loop ends: behind the last address it comes to 0, which is in the guard area. -/
theorem cstrEnd_ne_fuel (memory : PNMemory) : ∀ fuel p : Nat, p < 2 ^ 32 → 2 ^ 32 < p + fuel ∨ p = 0 ∧ 0 < fuel →
    cstrEnd memory fuel p ≠ .error .fuel
  | 0, p, hp, hf => by omega
  | fuel + 1, p, hp, hf => by
    rw [cstrEnd, pnMemoryRead]
    by_cases hg : p < PN_MEMORY_GUARD_SIZE
    · rw [pnMemoryCheck, if_pos hg]
      simp [pnFatal]
    · have hp0 : p ≠ 0 := by
        rintro rfl
        exact hg (by decide)
      rw [pnMemoryCheck, if_neg hg]
      split
      · simp [pnFatal]
      · simp only [ok_bind]
        split
        · simp
        · apply cstrEnd_ne_fuel memory fuel
          · exact Nat.mod_lt _ (by omega)
          · omega

theorem pnMemoryCheckCstr_ne_fuel (memory : PNMemory) {p : Nat} (hp : p < 2 ^ 32) : pnMemoryCheckCstr memory p ≠ .error .fuel := by
  have h := cstrEnd_ne_fuel memory (2 ^ 32 + 1) p hp (.inl (by omega))
  rw [pnMemoryCheckCstr]
  cases hc : cstrEnd memory (2 ^ 32 + 1) p with
  | error e =>
    rw [hc] at h
    simpa using h
  | ok e => simp

/-! ## The map -/

/-- The map holds standard descriptors only. -/
def StdFds (s : PNFsState) : Prop := ∀ fd, s.fdMap fd = -1 ∨ 0 ≤ s.fdMap fd ∧ s.fdMap fd ≤ 2

section Map

variable {s s' : PNFsState} {host : PNHostFs} {r : Nat}

theorem PNFsState.writeU32_fdMap {p value : Nat} (h : s.writeU32 p value = .ok s') : s'.fdMap = s.fdMap := by
  obtain ⟨_, _, h⟩ := bind_eq_ok.mp h
  cases h
  rfl

theorem pnFilesystemWriteStatBuf_fdMap {p : Nat} {buf : PNStat} (h : pnFilesystemWriteStatBuf s p buf = .ok s') :
    s'.fdMap = s.fdMap := by
  obtain ⟨_, _, h⟩ := bind_eq_ok.mp h
  cases h
  rfl

theorem PNFsState.fail_state {e : Nat} (h : s.fail e = .ok (r, s')) : s' = s := by
  obtain ⟨_, _, h⟩ := bind_eq_ok.mp h
  cases h
  rfl

/-- A builtin leaves the map as it is or closes a descriptor. -/
def MapKept (s s' : PNFsState) : Prop := s'.fdMap = s.fdMap ∨ ∃ fd, s'.fdMap = Function.update s.fdMap fd (-1)

theorem MapKept.stdFds (h : MapKept s s') (hs : StdFds s) : StdFds s' := by
  intro fd
  rcases h with h | ⟨fd', h⟩
  · rw [h]
    exact hs fd
  · rw [h]
    by_cases heq : fd = fd'
    · subst heq
      exact .inl (Function.update_self ..)
    · rw [Function.update_of_ne heq]
      exact hs fd

theorem fdioClose_map {fd : Nat} (h : pnFilesystemFdioClose false host s fd = .ok (r, s')) : MapKept s s' := by
  unfold pnFilesystemFdioClose at h
  split at h
  · cases h
    exact .inl rfl
  · obtain ⟨_, h⟩ := pnCheck_bind_eq_ok.mp h
    cases h
    exact .inr ⟨fd, rfl⟩

theorem fdioRead_map {fd bufP count nreadP : Nat} (h : pnFilesystemFdioRead false host s fd bufP count nreadP = .ok (r, s')) :
    MapKept s s' := by
  unfold pnFilesystemFdioRead at h
  split at h
  · cases h
    exact .inl rfl
  · obtain ⟨_, _, h⟩ := bind_eq_ok.mp h
    split at h
    · cases h
      exact .inl rfl
    · split at h
      · rw [PNFsState.fail_state h]
        exact .inl rfl
      · obtain ⟨_, hw, h⟩ := bind_eq_ok.mp h
        cases h
        exact .inl ((PNFsState.writeU32_fdMap hw).trans rfl)

theorem fdioSeek_map {fd offset whence newOffsetP : Nat}
    (h : pnFilesystemFdioSeek false host s fd offset whence newOffsetP = .ok (r, s')) : MapKept s s' := by
  unfold pnFilesystemFdioSeek at h
  split at h
  · cases h
    exact .inl rfl
  · cases h
    exact .inl rfl

theorem fdioWrite_map {fd bufP count nwroteP : Nat} (h : pnFilesystemFdioWrite false host s fd bufP count nwroteP = .ok (r, s')) :
    MapKept s s' := by
  unfold pnFilesystemFdioWrite at h
  split at h
  · cases h
    exact .inl rfl
  · obtain ⟨_, _, h⟩ := bind_eq_ok.mp h
    split at h
    · cases h
      exact .inl rfl
    · obtain ⟨_, hw, h⟩ := bind_eq_ok.mp h
      cases h
      exact .inl (PNFsState.writeU32_fdMap hw)

theorem fdioFstat_map {fd statP : Nat} (h : pnFilesystemFdioFstat host s fd statP = .ok (r, s')) : MapKept s s' := by
  unfold pnFilesystemFdioFstat at h
  split at h
  · cases h
    exact .inl rfl
  · split at h
    · rw [PNFsState.fail_state h]
      exact .inl rfl
    · obtain ⟨_, hw, h⟩ := bind_eq_ok.mp h
      cases h
      exact .inl (pnFilesystemWriteStatBuf_fdMap hw)

theorem fdioIsatty_map {fd resultP : Nat} (h : pnFilesystemFdioIsatty host s fd resultP = .ok (r, s')) : MapKept s s' := by
  unfold pnFilesystemFdioIsatty at h
  split at h
  · cases h
    exact .inl rfl
  · obtain ⟨_, hw, h⟩ := bind_eq_ok.mp h
    cases h
    exact .inl (PNFsState.writeU32_fdMap hw)

theorem filenameGetcwd_map {pathnameP len : Nat} (h : pnFilesystemFilenameGetcwd false host s pathnameP len = .ok (r, s')) :
    MapKept s s' := by
  obtain ⟨_, _, h⟩ := bind_eq_ok.mp h
  simp only [Bool.false_eq_true, if_false] at h
  split at h
  · cases h
    exact .inl rfl
  · cases h
    exact .inl rfl

theorem filenameStat_map {pathnameP statP : Nat} (h : pnFilesystemFilenameStat host s pathnameP statP = .ok (r, s')) :
    MapKept s s' := by
  obtain ⟨_, _, h⟩ := bind_eq_ok.mp h
  split at h
  · rw [PNFsState.fail_state h]
    exact .inl rfl
  · obtain ⟨_, hw, h⟩ := bind_eq_ok.mp h
    cases h
    exact .inl (pnFilesystemWriteStatBuf_fdMap hw)

/-- Without access the builtins on paths stop or refuse. -/
theorem refused_map {α : Type} {x : Except Stop α} {e : Nat} (h : (x >>= fun _ => (.ok (e, s) : PNFsResult)) = .ok (r, s')) :
    MapKept s s' := by
  obtain ⟨_, _, h⟩ := bind_eq_ok.mp h
  cases h
  exact .inl rfl

/-- **Step.** Without access every builtin keeps the map or closes a descriptor. -/
theorem exec_map {b : PNFsBuiltin} {args : List PNRuntimeValue} (h : b.exec false host args s = .ok (r, s')) : MapKept s s' := by
  cases b with
  | fdioClose => exact fdioClose_map (pnCheck_bind_eq_ok.mp h).2
  | fdioRead => exact fdioRead_map (pnCheck_bind_eq_ok.mp h).2
  | fdioSeek => exact fdioSeek_map (pnCheck_bind_eq_ok.mp h).2
  | fdioWrite => exact fdioWrite_map (pnCheck_bind_eq_ok.mp h).2
  | fdioFstat => exact fdioFstat_map (pnCheck_bind_eq_ok.mp h).2
  | fdioIsatty => exact fdioIsatty_map (pnCheck_bind_eq_ok.mp h).2
  | filenameGetcwd => exact filenameGetcwd_map (pnCheck_bind_eq_ok.mp h).2
  | filenameStat => exact filenameStat_map (pnCheck_bind_eq_ok.mp h).2
  | filenameOpen | filenameAccess => exact refused_map (pnCheck_bind_eq_ok.mp h).2
  | filenameReadlink =>
    obtain ⟨_, _, h⟩ := bind_eq_ok.mp (pnCheck_bind_eq_ok.mp h).2
    exact refused_map h
  | _ =>
    cases h
    exact .inl rfl

/-- **Invariant.** A guest without access never has another descriptor than the standard ones. -/
theorem FsReachable.stdFds (h : FsReachable s) : StdFds s := by
  induction h with
  | init memory =>
    intro fd
    simp only [initialFdMap]
    split
    · exact .inr ⟨by omega, by omega⟩
    · exact .inl rfl
  | guest memory _ ih => exact ih
  | call host b args _ hexec ih => exact (exec_map hexec).stdFds ih

end Map

/-! ## Two hosts -/

section TwoHosts

variable {s : PNFsState} {host host' : PNHostFs}

theorem StdFds.hostFd (hs : StdFds s) {fd : Nat} {hostFd : Int} (h : pnFilesystemGetHostFd s fd = some hostFd) :
    0 ≤ hostFd ∧ hostFd ≤ 2 := by
  unfold pnFilesystemGetHostFd at h
  split at h
  · cases h
  · split at h
    · cases h
    next hne =>
      cases h
      exact (hs fd).resolve_left hne

/-- **Step.** Without access a builtin other than FILENAME_STAT does the same on hosts that agree on the standard descriptors. -/
theorem exec_congr (ha : AgreeStd host host') (hs : StdFds s) {b : PNFsBuiltin} (hb : b ≠ .filenameStat) (args : List PNRuntimeValue) :
    b.exec false host args s = b.exec false host' args s := by
  cases b with
  | filenameStat => exact absurd rfl hb
  | fdioRead =>
    simp only [PNFsBuiltin.exec, pnFilesystemFdioRead]
    cases h : pnFilesystemGetHostFd s (pnArg args 0 4) with
    | none => rfl
    | some fd =>
      obtain ⟨h0, h2⟩ := hs.hostFd h
      simp only [ha.read fd h0 h2]
  | fdioWrite =>
    simp only [PNFsBuiltin.exec, pnFilesystemFdioWrite]
    cases h : pnFilesystemGetHostFd s (pnArg args 0 4) with
    | none => rfl
    | some fd =>
      obtain ⟨h0, h2⟩ := hs.hostFd h
      simp only [ha.write fd h0 h2]
  | fdioFstat =>
    simp only [PNFsBuiltin.exec, pnFilesystemFdioFstat]
    cases h : pnFilesystemGetHostFd s (pnArg args 0 4) with
    | none => rfl
    | some fd =>
      obtain ⟨h0, h2⟩ := hs.hostFd h
      simp only [ha.fstat fd h0 h2]
  | fdioIsatty =>
    simp only [PNFsBuiltin.exec, pnFilesystemFdioIsatty]
    cases h : pnFilesystemGetHostFd s (pnArg args 0 4) with
    | none => rfl
    | some fd =>
      obtain ⟨h0, h2⟩ := hs.hostFd h
      simp only [ha.isatty fd h0 h2]
  | _ => rfl

/-- A call of FILENAME_STAT whose arguments and path pass their checks. -/
def StatsPath (b : PNFsBuiltin) (args : List PNRuntimeValue) (s : PNFsState) : Prop :=
  b = .filenameStat ∧ args.length = 2 ∧ ∃ path, pnMemoryCheckCstr s.memory (pnArg args 0 4) = .ok path

/-- A host without files: every call fails with `e`. -/
def failingHost (e : Nat) : PNHostFs where
  close _ := some e
  read _ _ := .error e
  lseek _ _ _ := .error e
  write _ _ := -1
  fstat _ := .error e
  isatty _ := 0
  getcwd _ := .error e
  openPath _ _ _ := .error e
  access _ _ := some e
  readlink _ _ := .error e
  stat _ := .error e

/-- **The host is hidden.** In every state of a guest without file system access, a call has the same result, memory and map on all
hosts that agree on the standard descriptors iff it is not a FILENAME_STAT that gets as far as the host. -/
theorem filesystem_hidden_iff {s : PNFsState} (hs : FsReachable s) (b : PNFsBuiltin) (args : List PNRuntimeValue) :
    (∀ host host', AgreeStd host host' → b.exec false host args s = b.exec false host' args s) ↔ ¬StatsPath b args s := by
  constructor
  · rintro h ⟨rfl, hargs, path, hpath⟩
    have hstat (host : PNHostFs) (e : Nat) (he : host.stat path = .error e) :
        PNFsBuiltin.filenameStat.exec false host args s = s.fail e := by
      simp only [PNFsBuiltin.exec, pnCheck_bind hargs, pnFilesystemFilenameStat, hpath, ok_bind, he]
    have hagree : AgreeStd (failingHost PN_ENOENT) { failingHost PN_ENOENT with stat := fun _ => .error PN_EACCES } :=
      ⟨fun _ _ _ => rfl, fun _ _ _ => rfl, fun _ _ _ => rfl, fun _ _ _ => rfl, fun _ _ _ => rfl, fun _ _ _ => rfl⟩
    have heq := h _ _ hagree
    rw [hstat _ PN_ENOENT rfl, hstat _ PN_EACCES rfl] at heq
    cases heq
  · intro hn host host' ha
    by_cases hb : b = .filenameStat
    · subst hb
      by_cases hargs : args.length = 2
      · cases hp : pnMemoryCheckCstr s.memory (pnArg args 0 4) with
        | error e => simp only [PNFsBuiltin.exec, pnCheck_bind hargs, pnFilesystemFilenameStat, hp, error_bind]
        | ok path => exact absurd ⟨rfl, hargs, path, hp⟩ hn
      · simp only [PNFsBuiltin.exec, pnCheck_bind_neg hargs]
    · exact exec_congr ha hs.stdFds hb args

end TwoHosts

/-! ## A path -/

/-- The string `"a"` at 2048. -/
def demoPath : PNFsState := ⟨⟨fun i => if i = 2048 then 97 else 0, 2 ^ 20⟩, initialFdMap⟩

/-- Opening a path gives the same on all hosts. -/
theorem filesystem_hidden_iff_open :
    ¬StatsPath .filenameOpen [2048, 0, 0, 4096] demoPath ∧ ∀ host host', AgreeStd host host' →
      PNFsBuiltin.filenameOpen.exec false host [2048, 0, 0, 4096] demoPath =
        PNFsBuiltin.filenameOpen.exec false host' [2048, 0, 0, 4096] demoPath :=
  have hopen : ¬StatsPath .filenameOpen [2048, 0, 0, 4096] demoPath := fun h => by cases h.1
  ⟨hopen, (filesystem_hidden_iff (.init _) .filenameOpen [2048, 0, 0, 4096]).mpr hopen⟩

/-- FILENAME_STAT tells a guest without access whether a path exists. -/
theorem stat_reaches_host : FsReachable demoPath ∧ ∃ host host', AgreeStd host host' ∧
    PNFsBuiltin.filenameStat.exec false host [2048, 4096] demoPath = .ok (PN_ENOENT, demoPath) ∧
    PNFsBuiltin.filenameStat.exec false host' [2048, 4096] demoPath = .ok (PN_EACCES, demoPath) :=
  ⟨.init _, failingHost PN_ENOENT, { failingHost PN_ENOENT with stat := fun _ => .error PN_EACCES },
    ⟨fun _ _ _ => rfl, fun _ _ _ => rfl, fun _ _ _ => rfl, fun _ _ _ => rfl, fun _ _ _ => rfl, fun _ _ _ => rfl⟩, rfl, rfl⟩

end Pnacl
