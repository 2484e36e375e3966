import Pnacl.Filesystem
import Mathlib.Data.Finset.Basic

/-!
# What the host does for the guest

With access to the file system a builtin asks the host. `HostFails` says that it gets as far as its system call and that this
call fails: every builtin but FDIO_WRITE then returns the error and does nothing else (`failed_call_iff`).

The descriptors that the host opened for the guest and that are still open are the entries of `fd_map` (`Accounted`), each in
one slot, as long as no open succeeds while all slots are taken (`no_descriptor_leaked`): then the builtin returns EMFILE and
forgets the descriptor.
-/

namespace Pnacl

open Lib

/-! ## Calls that fail -/

/-- With file system access the builtin gets as far as its system call, and the host answers with the error `e`. A write that
fails returns -1; nothing reads its `errno`. -/
inductive HostFails (host : PNHostFs) (args : List PNRuntimeValue) (s : PNFsState) (e : Nat) : PNFsBuiltin → Prop where
  | close {fd : Int} (hn : args.length = 1) (hfd : pnFilesystemGetHostFd s (pnArg args 0 4) = some fd)
      (h : host.close fd = some e) : HostFails host args s e .fdioClose
  | read {fd : Int} (hn : args.length = 4) (hfd : pnFilesystemGetHostFd s (pnArg args 0 4) = some fd)
      (hbuf : pnMemoryCheck s.memory (pnArg args 1 4) (pnArg args 2 4) = .ok ())
      (h : host.read fd (pnArg args 2 4) = .error e) : HostFails host args s e .fdioRead
  | write {fd : Int} (hn : args.length = 4) (hfd : pnFilesystemGetHostFd s (pnArg args 0 4) = some fd)
      (hbuf : pnMemoryCheck s.memory (pnArg args 1 4) (pnArg args 2 4) = .ok ())
      (h : host.write fd (s.memory.bytes (pnArg args 1 4) (pnArg args 2 4)) = -1) : HostFails host args s e .fdioWrite
  | seek {fd : Int} (hn : args.length = 4) (hfd : pnFilesystemGetHostFd s (pnArg args 0 4) = some fd)
      (h : host.lseek fd (pnArg args 1 4) (pnArg args 2 4) = .error e) : HostFails host args s e .fdioSeek
  | fstat {fd : Int} (hn : args.length = 2) (hfd : pnFilesystemGetHostFd s (pnArg args 0 4) = some fd)
      (h : host.fstat fd = .error e) : HostFails host args s e .fdioFstat
  | opens {path : List UInt8} (hn : args.length = 4) (hpath : pnMemoryCheckCstr s.memory (pnArg args 0 4) = .ok path)
      (h : host.openPath path (pnArg args 1 4) (pnArg args 2 4) = .error e) : HostFails host args s e .filenameOpen
  | access {path : List UInt8} (hn : args.length = 2) (hpath : pnMemoryCheckCstr s.memory (pnArg args 0 4) = .ok path)
      (h : host.access path (pnArg args 1 4) = some e) : HostFails host args s e .filenameAccess
  | readlink {path : List UInt8} (hn : args.length = 4) (hpath : pnMemoryCheckCstr s.memory (pnArg args 0 4) = .ok path)
      (hbuf : pnMemoryCheck s.memory (pnArg args 1 4) (pnArg args 2 4) = .ok ())
      (h : host.readlink path (pnArg args 2 4) = .error e) : HostFails host args s e .filenameReadlink
  | stat {path : List UInt8} (hn : args.length = 2) (hpath : pnMemoryCheckCstr s.memory (pnArg args 0 4) = .ok path)
      (h : host.stat path = .error e) : HostFails host args s e .filenameStat

section Failures

variable {host : PNHostFs} {args : List PNRuntimeValue} {s s' : PNFsState} {e r : Nat} {b : PNFsBuiltin}

/-- Every `errno` that the builtins can return is an error. -/
theorem pnErrnos_pos (h : e ∈ pnErrnos) : 0 < e := by
  have hall : ∀ e ∈ pnErrnos, 0 < e := by decide
  exact hall e h

theorem pnFromErrno_eq_ok_iff : pnFromErrno e = .ok r ↔ e ∈ pnErrnos ∧ r = e := by
  unfold pnFromErrno
  split
  next h => simp [h, eq_comm]
  next h => simp [h, pnFatal]

theorem PNFsState.fail_eq_ok_iff : s.fail e = .ok (r, s') ↔ e ∈ pnErrnos ∧ r = e ∧ s' = s := by
  unfold PNFsState.fail
  constructor
  · intro h
    obtain ⟨r', hr, h⟩ := bind_eq_ok.mp h
    obtain ⟨he, hr⟩ := pnFromErrno_eq_ok_iff.mp hr
    simp only [Except.ok.injEq, Prod.mk.injEq] at h
    exact ⟨he, h.1.symm.trans hr, h.2.symm⟩
  · rintro ⟨he, rfl, rfl⟩
    rw [pnFromErrno_eq_ok_iff.mpr ⟨he, rfl⟩, ok_bind]

/-- All builtins but FDIO_WRITE hand the error to `pn_from_errno` and touch nothing. -/
theorem HostFails.exec_eq (h : HostFails host args s e b) (hb : b ≠ .fdioWrite) : b.exec true host args s = s.fail e := by
  cases h with
  | write => exact absurd rfl hb
  | close hn hfd h => simp only [PNFsBuiltin.exec, pnCheck_bind hn, pnFilesystemFdioClose, hfd, if_true, h]
  | read hn hfd hbuf h =>
    simp [PNFsBuiltin.exec, pnCheck_bind hn, pnFilesystemFdioRead, hfd, hbuf, h]
  | seek hn hfd h => simp only [PNFsBuiltin.exec, pnCheck_bind hn, pnFilesystemFdioSeek, hfd, if_true, h]
  | fstat hn hfd h => simp only [PNFsBuiltin.exec, pnCheck_bind hn, pnFilesystemFdioFstat, hfd, h]
  | opens hn hpath h => simp [PNFsBuiltin.exec, pnCheck_bind hn, pnFilesystemFilenameOpen, hpath, h]
  | access hn hpath h => simp [PNFsBuiltin.exec, pnCheck_bind hn, pnFilesystemFilenameAccess, hpath, h]
  | readlink hn hpath hbuf h =>
    simp [PNFsBuiltin.exec, pnCheck_bind hn, pnFilesystemFilenameReadlink, hpath, hbuf, h]
  | stat hn hpath h => simp [PNFsBuiltin.exec, pnCheck_bind hn, pnFilesystemFilenameStat, hpath, h]

/-- FDIO_WRITE never returns an error once it has called the host. -/
theorem HostFails.write_returns (h : HostFails host args s e .fdioWrite)
    (hexec : PNFsBuiltin.fdioWrite.exec true host args s = .ok (r, s')) : r = 0 := by
  cases h with
  | write hn hfd hbuf h =>
    simp only [PNFsBuiltin.exec, pnCheck_bind hn, pnFilesystemFdioWrite, hfd, hbuf, ok_bind, Bool.not_true,
      Bool.false_eq_true, false_and, if_false] at hexec
    obtain ⟨_, -, hexec⟩ := bind_eq_ok.mp hexec
    cases hexec
    rfl

/-- **Failed calls.** When the system call of a builtin fails, the builtin returns the error and leaves memory and map alone iff it
is not FDIO_WRITE and the error is one that `PNErrno` has. -/
theorem failed_call_iff (h : HostFails host args s e b) :
    (e ≠ 0 ∧ b.exec true host args s = .ok (e, s)) ↔ b ≠ .fdioWrite ∧ e ∈ pnErrnos := by
  constructor
  · rintro ⟨he, hexec⟩
    have hb : b ≠ .fdioWrite := by
      rintro rfl
      exact he (h.write_returns hexec)
    rw [h.exec_eq hb] at hexec
    exact ⟨hb, (PNFsState.fail_eq_ok_iff.mp hexec).1⟩
  · rintro ⟨hb, he⟩
    have hpos := pnErrnos_pos he
    refine ⟨by omega, ?_⟩
    rw [h.exec_eq hb]
    exact PNFsState.fail_eq_ok_iff.mpr ⟨he, rfl, rfl⟩

/-- Seeking on a terminal. -/
theorem failed_call_iff_seek :
    (PN_ESPIPE ≠ 0 ∧
      PNFsBuiltin.fdioSeek.exec true (failingHost PN_ESPIPE) [0, 0, 0, 4096] demoPath = .ok (PN_ESPIPE, demoPath)) ↔
      PNFsBuiltin.fdioSeek ≠ .fdioWrite ∧ PN_ESPIPE ∈ pnErrnos :=
  failed_call_iff (.seek rfl rfl rfl)

/-- A write that the host refuses succeeds for the guest, with a count of 2^32 - 1. -/
theorem failed_write_succeeds : ∃ s', HostFails (failingHost PN_EBADF) [0, 2048, 1, 4096] demoPath PN_EBADF .fdioWrite ∧
    PNFsBuiltin.fdioWrite.exec true (failingHost PN_EBADF) [0, 2048, 1, 4096] demoPath = .ok (0, s') ∧
    pnMemoryRead s'.memory 4 4096 = .ok (2 ^ 32 - 1) ∧ pnMemoryRead demoPath.memory 4 4096 = .ok 0 :=
  ⟨_, .write rfl rfl rfl rfl, rfl, by decide, by decide⟩

end Failures

/-! ## Descriptors -/

/-- The descriptor that the host opens in a call of FILENAME_OPEN. -/
def hostOpened (host : PNHostFs) (args : List PNRuntimeValue) (s : PNFsState) : Option Int :=
  match pnMemoryCheckCstr s.memory (pnArg args 0 4) with
  | .ok path => (host.openPath path (pnArg args 1 4) (pnArg args 2 4)).toOption
  | .error _ => none

/-- The descriptor that the host closes in a call of FDIO_CLOSE. -/
def hostClosed (host : PNHostFs) (args : List PNRuntimeValue) (s : PNFsState) : Option Int :=
  (pnFilesystemGetHostFd s (pnArg args 0 4)).filter fun fd => (host.close fd).isNone

/-- The descriptors of the host that are open, and those of them that it opened for the guest. -/
structure PNHostFds where
  live : Finset Int
  opened : Finset Int

def PNHostFds.opens (fds : PNHostFds) (fd : Option Int) : PNHostFds :=
  match fd with
  | some fd => ⟨insert fd fds.live, insert fd fds.opened⟩
  | none => fds

def PNHostFds.closes (fds : PNHostFds) (fd : Option Int) : PNHostFds :=
  match fd with
  | some fd => ⟨fds.live.erase fd, fds.opened.erase fd⟩
  | none => fds

/-- What `open` answers is a descriptor that is not open. -/
def OpensFresh (host : PNHostFs) (live : Finset Int) : Prop :=
  ∀ path oflag cmode fd, host.openPath path oflag cmode = .ok fd → 0 ≤ fd ∧ fd ∉ live

/-- A guest with file system access calls FILENAME_OPEN, when `S` holds, and FDIO_CLOSE, and changes its memory in between. -/
inductive FdRun (S : PNFsState → PNHostFs → List PNRuntimeValue → Prop) : PNFsState → PNHostFds → Prop where
  | init (memory : PNMemory) {live : Finset Int} (hstd : {0, 1, 2} ⊆ live) : FdRun S ⟨memory, initialFdMap⟩ ⟨live, ∅⟩
  | guest {s : PNFsState} {fds : PNHostFds} (memory : PNMemory) (h : FdRun S s fds) : FdRun S { s with memory := memory } fds
  | opens {s s' : PNFsState} {fds : PNHostFds} {r : Nat} (host : PNHostFs) (args : List PNRuntimeValue) (h : FdRun S s fds)
      (hfresh : OpensFresh host fds.live) (hS : S s host args)
      (hexec : PNFsBuiltin.filenameOpen.exec true host args s = .ok (r, s')) :
      FdRun S s' (fds.opens (hostOpened host args s))
  | close {s s' : PNFsState} {fds : PNHostFds} {r : Nat} (host : PNHostFs) (args : List PNRuntimeValue) (h : FdRun S s fds)
      (hexec : PNFsBuiltin.fdioClose.exec true host args s = .ok (r, s')) :
      FdRun S s' (fds.closes (hostClosed host args s))

/-- `fd` is an entry of the map. -/
def Mapped (s : PNFsState) (fd : Int) : Prop := fd ≠ -1 ∧ ∃ slot < PN_MAX_FDS, s.fdMap slot = fd

/-- The descriptors opened for the guest, with those of 0, 1 and 2 that are still mapped, are the entries of the map, each in one
slot, and all of them are open. -/
structure Accounted (s : PNFsState) (fds : PNHostFds) : Prop where
  opened_iff : ∀ fd, (fd ∈ fds.opened ∨ fd ∈ ({0, 1, 2} : Finset Int) ∧ Mapped s fd) ↔ Mapped s fd
  slot_unique : ∀ i < PN_MAX_FDS, ∀ j < PN_MAX_FDS, s.fdMap i ≠ -1 → s.fdMap i = s.fdMap j → i = j
  live : ∀ fd, Mapped s fd → fd ∈ fds.live

/-- The host opens nothing while all slots are taken. -/
def SlotFree (s : PNFsState) (host : PNHostFs) (args : List PNRuntimeValue) : Prop :=
  (∃ slot < PN_MAX_FDS, s.fdMap slot = -1) ∨ hostOpened host args s = none

section Descriptors

variable {host : PNHostFs} {args : List PNRuntimeValue} {s s' : PNFsState} {fds : PNHostFds} {r : Nat} {fd : Int}

/-- The three ways a call of FILENAME_OPEN returns. -/
theorem filenameOpen_cases (h : PNFsBuiltin.filenameOpen.exec true host args s = .ok (r, s')) :
    (hostOpened host args s = none ∧ s' = s) ∨
      (∃ fd, hostOpened host args s = some fd ∧ (∀ slot < PN_MAX_FDS, s.fdMap slot ≠ -1) ∧ r = PN_EMFILE ∧ s' = s) ∨
      ∃ fd slot, hostOpened host args s = some fd ∧ slot < PN_MAX_FDS ∧ s.fdMap slot = -1 ∧ r = 0 ∧
        s'.fdMap = Function.update s.fdMap slot fd := by
  obtain ⟨-, h⟩ := pnCheck_bind_eq_ok.mp h
  obtain ⟨path, hpath, h⟩ := bind_eq_ok.mp h
  simp only [Bool.not_true, Bool.false_eq_true, if_false] at h
  have hopened : hostOpened host args s = (host.openPath path (pnArg args 1 4) (pnArg args 2 4)).toOption := by
    simp only [hostOpened, hpath]
  split at h
  next e he =>
    left
    exact ⟨by rw [hopened, he]; rfl, PNFsState.fail_state h⟩
  next fd hfd =>
    have hopened : hostOpened host args s = some fd := by
      rw [hopened, hfd]
      rfl
    right
    split at h
    next hnone =>
      left
      cases h
      refine ⟨fd, hopened, fun slot hslot heq => ?_, rfl, rfl⟩
      simpa [heq] using List.find?_eq_none.mp hnone slot (List.mem_range.mpr hslot)
    next slot hslot =>
      right
      obtain ⟨s₁, hw, h⟩ := bind_eq_ok.mp h
      cases h
      refine ⟨fd, slot, hopened, List.mem_range.mp (List.mem_of_find?_eq_some hslot), ?_, rfl, ?_⟩
      · simpa using List.find?_some hslot
      · exact PNFsState.writeU32_fdMap hw

/-- The two ways a call of FDIO_CLOSE returns. -/
theorem fdioClose_cases (h : PNFsBuiltin.fdioClose.exec true host args s = .ok (r, s')) :
    (hostClosed host args s = none ∧ s' = s) ∨
      ∃ fd slot, hostClosed host args s = some fd ∧ slot < PN_MAX_FDS ∧ s.fdMap slot = fd ∧ fd ≠ -1 ∧
        s'.fdMap = Function.update s.fdMap slot (-1) := by
  obtain ⟨-, h⟩ := pnCheck_bind_eq_ok.mp h
  unfold pnFilesystemFdioClose at h
  unfold hostClosed
  cases hfd : pnFilesystemGetHostFd s (pnArg args 0 4) with
  | none =>
    simp only [hfd] at h
    cases h
    exact .inl ⟨rfl, rfl⟩
  | some fd =>
    simp only [hfd, if_true] at h
    obtain ⟨hslot, hne, heq⟩ : pnArg args 0 4 < PN_MAX_FDS ∧ s.fdMap (pnArg args 0 4) ≠ -1 ∧
        s.fdMap (pnArg args 0 4) = fd := by
      unfold pnFilesystemGetHostFd at hfd
      split at hfd
      · cases hfd
      next hlt =>
        split at hfd
        · cases hfd
        next hne => exact ⟨Nat.lt_of_not_le hlt, hne, Option.some.inj hfd⟩
    cases hc : host.close fd with
    | none =>
      rw [hc] at h
      cases h
      exact .inr ⟨fd, pnArg args 0 4, by simp [hc], hslot, heq, heq ▸ hne, rfl⟩
    | some e =>
      rw [hc] at h
      exact .inl ⟨by simp [hc], PNFsState.fail_state h⟩

theorem Accounted.init (memory : PNMemory) {live : Finset Int} (hstd : {0, 1, 2} ⊆ live) :
    Accounted ⟨memory, initialFdMap⟩ ⟨live, ∅⟩ := by
  have hstd' (fd : Int) (h : Mapped ⟨memory, initialFdMap⟩ fd) : fd ∈ ({0, 1, 2} : Finset Int) := by
    obtain ⟨hne, slot, -, rfl⟩ := h
    simp only [initialFdMap] at hne ⊢
    split
    next hle => simp only [Finset.mem_insert, Finset.mem_singleton]; omega
    next hlt => exact absurd (if_neg hlt) hne
  refine ⟨fun fd => ⟨?_, fun h => .inr ⟨hstd' fd h, h⟩⟩, ?_, fun fd h => hstd (hstd' fd h)⟩
  · rintro (h | h)
    · simp at h
    · exact h.2
  · intro i _ j _ hi heq
    simp only [initialFdMap] at hi heq
    split at heq
    · split at heq
      · omega
      · omega
    next hlt => exact absurd (if_neg hlt) hi

/-- Only the map counts. -/
theorem Accounted.congr (h : Accounted s fds) (heq : s'.fdMap = s.fdMap) : Accounted s' fds := by
  have hm (fd : Int) : Mapped s' fd ↔ Mapped s fd := by simp only [Mapped, heq]
  refine ⟨fun fd => ?_, fun i hi j hj => ?_, fun fd hfd => h.live fd ((hm fd).mp hfd)⟩
  · rw [hm]
    exact h.opened_iff fd
  · rw [heq]
    exact h.slot_unique i hi j hj

theorem Accounted.mapped_of_opened (h : Accounted s fds) (hfd : fd ∈ fds.opened) : Mapped s fd := (h.opened_iff fd).mp (.inl hfd)

/-- A new descriptor goes to a free slot. -/
theorem Accounted.insert (h : Accounted s fds) {slot : Nat} (hslot : slot < PN_MAX_FDS) (hfree : s.fdMap slot = -1)
    (hpos : 0 ≤ fd) (hfresh : fd ∉ fds.live) (hmap : s'.fdMap = Function.update s.fdMap slot fd) :
    Accounted s' (fds.opens (some fd)) := by
  have hm (fd' : Int) : Mapped s' fd' ↔ fd' = fd ∨ Mapped s fd' := by
    unfold Mapped
    rw [hmap]
    constructor
    · rintro ⟨hne, i, hi, heq⟩
      by_cases his : i = slot
      · subst his
        rw [Function.update_self] at heq
        exact .inl heq.symm
      · rw [Function.update_of_ne his] at heq
        exact .inr ⟨hne, i, hi, heq⟩
    · rintro (rfl | ⟨hne, i, hi, rfl⟩)
      · exact ⟨by omega, slot, hslot, Function.update_self ..⟩
      · refine ⟨hne, i, hi, Function.update_of_ne ?_ ..⟩
        rintro rfl
        exact hne hfree
  have hnew (i : Nat) (hi : i < PN_MAX_FDS) : s.fdMap i ≠ fd := fun heq => hfresh (h.live fd ⟨by omega, i, hi, heq⟩)
  refine ⟨fun fd' => ?_, fun i hi j hj hne heq => ?_, fun fd' hfd' => ?_⟩
  · rw [hm]
    constructor
    · rintro (hfd' | hfd')
      · rcases Finset.mem_insert.mp hfd' with rfl | hfd'
        · exact .inl rfl
        · exact .inr (h.mapped_of_opened hfd')
      · exact hfd'.2
    · rintro (rfl | hfd')
      · exact .inl (Finset.mem_insert_self ..)
      · rcases (h.opened_iff fd').mpr hfd' with ho | ho
        · exact .inl (Finset.mem_insert_of_mem ho)
        · exact .inr ⟨ho.1, .inr hfd'⟩
  · rw [hmap] at hne heq
    by_cases his : i = slot
    · subst his
      by_cases hjs : j = i
      · exact hjs.symm
      · rw [Function.update_self, Function.update_of_ne hjs] at heq
        exact absurd heq.symm (hnew j hj)
    · rw [Function.update_of_ne his] at hne heq
      by_cases hjs : j = slot
      · subst hjs
        rw [Function.update_self] at heq
        exact absurd heq (hnew i hi)
      · rw [Function.update_of_ne hjs] at heq
        exact h.slot_unique i hi j hj hne heq
  · rcases (hm fd').mp hfd' with rfl | hfd'
    · exact Finset.mem_insert_self ..
    · exact Finset.mem_insert_of_mem (h.live fd' hfd')

/-- A slot is given back together with its descriptor. -/
theorem Accounted.erase (h : Accounted s fds) {slot : Nat} (hslot : slot < PN_MAX_FDS) (heq : s.fdMap slot = fd) (hne : fd ≠ -1)
    (hmap : s'.fdMap = Function.update s.fdMap slot (-1)) : Accounted s' (fds.closes (some fd)) := by
  have hm (fd' : Int) : Mapped s' fd' ↔ fd' ≠ fd ∧ Mapped s fd' := by
    unfold Mapped
    rw [hmap]
    constructor
    · rintro ⟨hne', i, hi, hi'⟩
      have his : i ≠ slot := by
        rintro rfl
        rw [Function.update_self] at hi'
        exact hne' hi'.symm
      rw [Function.update_of_ne his] at hi'
      refine ⟨?_, hne', i, hi, hi'⟩
      rintro rfl
      exact his (h.slot_unique i hi slot hslot (by rwa [hi']) (hi'.trans heq.symm))
    · rintro ⟨hfd', hne', i, hi, rfl⟩
      refine ⟨hne', i, hi, Function.update_of_ne ?_ ..⟩
      rintro rfl
      exact hfd' heq
  refine ⟨fun fd' => ?_, fun i hi j hj hne' heq' => ?_, fun fd' hfd' => ?_⟩
  · rw [hm]
    constructor
    · rintro (hfd' | hfd')
      · obtain ⟨hfd', ho⟩ := Finset.mem_erase.mp hfd'
        exact ⟨hfd', h.mapped_of_opened ho⟩
      · exact hfd'.2
    · rintro ⟨hfd', hmap'⟩
      rcases (h.opened_iff fd').mpr hmap' with ho | ho
      · exact .inl (Finset.mem_erase.mpr ⟨hfd', ho⟩)
      · exact .inr ⟨ho.1, hfd', hmap'⟩
  · rw [hmap] at hne' heq'
    have hi' : i ≠ slot := by
      rintro rfl
      exact hne' (Function.update_self ..)
    rw [Function.update_of_ne hi'] at hne' heq'
    have hj' : j ≠ slot := by
      rintro rfl
      rw [Function.update_self] at heq'
      exact hne' heq'
    rw [Function.update_of_ne hj'] at heq'
    exact h.slot_unique i hi j hj hne' heq'
  · obtain ⟨hfd', hmap'⟩ := (hm fd').mp hfd'
    exact Finset.mem_erase.mpr ⟨hfd', h.live fd' hmap'⟩

/-- **Step.** An open with a free slot, or one that fails on the host, keeps the descriptors accounted for. -/
theorem Accounted.opens (h : Accounted s fds) (hfresh : OpensFresh host fds.live) (hS : SlotFree s host args)
    (hexec : PNFsBuiltin.filenameOpen.exec true host args s = .ok (r, s')) :
    Accounted s' (fds.opens (hostOpened host args s)) ∧ (r ≠ 0 → hostOpened host args s = none) := by
  rcases filenameOpen_cases hexec with ⟨hnone, rfl⟩ | ⟨fd, hfd, hfull, -, rfl⟩ | ⟨fd, slot, hfd, hslot, hfree, rfl, hmap⟩
  · rw [hnone]
    exact ⟨h, fun _ => rfl⟩
  · rcases hS with ⟨slot, hslot, hfree⟩ | hnone
    · exact absurd hfree (hfull slot hslot)
    · rw [hnone] at hfd
      cases hfd
  · refine ⟨?_, fun hr => absurd rfl hr⟩
    obtain ⟨hpos, hnew⟩ : 0 ≤ fd ∧ fd ∉ fds.live := by
      unfold hostOpened at hfd
      split at hfd
      next path _ =>
        cases ho : host.openPath path (pnArg args 1 4) (pnArg args 2 4) with
        | error e => simp [ho, Except.toOption] at hfd
        | ok fd' =>
          obtain rfl : fd' = fd := by simpa [ho, Except.toOption] using hfd
          exact hfresh path _ _ _ ho
      · cases hfd
    rw [hfd]
    exact h.insert hslot hfree hpos hnew hmap

/-- **Step.** So does every close. -/
theorem Accounted.closes (h : Accounted s fds) (hexec : PNFsBuiltin.fdioClose.exec true host args s = .ok (r, s')) :
    Accounted s' (fds.closes (hostClosed host args s)) := by
  rcases fdioClose_cases hexec with ⟨hnone, rfl⟩ | ⟨fd, slot, hfd, hslot, heq, hne, hmap⟩
  · rw [hnone]
    exact h
  · rw [hfd]
    exact h.erase hslot heq hne hmap

theorem FdRun.accounted (h : FdRun SlotFree s fds) : Accounted s fds := by
  induction h with
  | init memory hstd => exact .init memory hstd
  | guest memory _ ih => exact ih.congr rfl
  | opens host args _ hfresh hS hexec ih => exact (ih.opens hfresh hS hexec).1
  | close host args _ hexec ih => exact ih.closes hexec

/-- **No leak.** In every run in which the host opens nothing while all slots are taken, the descriptors are accounted for in every
state, and an open that returns an error has opened nothing. -/
theorem no_descriptor_leaked (h : FdRun SlotFree s fds) : Accounted s fds ∧
    ∀ host args r s', OpensFresh host fds.live → SlotFree s host args →
      PNFsBuiltin.filenameOpen.exec true host args s = .ok (r, s') → r ≠ 0 → fds.opens (hostOpened host args s) = fds := by
  refine ⟨h.accounted, fun host args r s' hfresh hS hexec hr => ?_⟩
  rw [(h.accounted.opens hfresh hS hexec).2 hr]
  rfl

end Descriptors

/-! ## A full table -/

/-- A host that opens the descriptor `fd` next. -/
def openingHost (fd : Int) : PNHostFs := { failingHost PN_ENOENT with openPath := fun _ _ _ => .ok fd }

/-- A guest that has opened the descriptors below `n`, and its memory of zeros. -/
def openedBelow (n : Nat) : PNFsState := ⟨⟨fun _ => 0, 2 ^ 20⟩, fun fd => if fd < n then fd else -1⟩

theorem openedBelow_opens {n : Nat} (hn : n < PN_MAX_FDS) : ∃ s',
    PNFsBuiltin.filenameOpen.exec true (openingHost n) [2048, 0, 0, 4096] (openedBelow n) = .ok (0, s') ∧
      s'.fdMap = (openedBelow (n + 1)).fdMap := by
  have hpath : pnMemoryCheckCstr (openedBelow n).memory 2048 = .ok [] := rfl
  have hfind : (List.range PN_MAX_FDS).find? (fun fd => (openedBelow n).fdMap fd = -1) = some n := by
    rw [List.find?_range_eq_some]
    refine ⟨by simp [openedBelow], List.mem_range.mpr hn, fun j hj => ?_⟩
    simp only [openedBelow, if_pos hj]
    simp
  obtain ⟨memory, hwrite⟩ : ∃ memory, pnMemoryWrite (openedBelow n).memory 4 4096 (n % 2 ^ 32) = .ok memory := ⟨_, rfl⟩
  have hmap : Function.update (openedBelow n).fdMap n n = (openedBelow (n + 1)).fdMap := by
    funext fd
    by_cases hfd : fd = n
    · subst hfd
      rw [Function.update_self]
      simp [openedBelow]
    · rw [Function.update_of_ne hfd]
      simp only [openedBelow]
      split
      · rw [if_pos (by omega)]
      · rw [if_neg (by omega)]
  refine ⟨⟨memory, (openedBelow (n + 1)).fdMap⟩, ?_, rfl⟩
  have hargs : [(2048 : PNRuntimeValue), 0, 0, 4096].length = 4 := rfl
  have hp : pnArg [2048, 0, 0, 4096] 0 4 = 2048 := rfl
  have hnew : pnArg [2048, 0, 0, 4096] 3 4 = 4096 := rfl
  simp only [PNFsBuiltin.exec, pnCheck_bind hargs, pnFilesystemFilenameOpen, hp, hpath, ok_bind, Bool.not_true, Bool.false_eq_true,
    if_false, openingHost, hfind, hnew, PNFsState.writeU32, hwrite, hmap]

/-- The guest has the standard descriptors at first. -/
theorem FdRun.openedBelow_three {S : PNFsState → PNHostFs → List PNRuntimeValue → Prop} :
    FdRun S (openedBelow 3) ⟨{0, 1, 2}, ∅⟩ := by
  have hmap : initialFdMap = (openedBelow 3).fdMap := by
    funext fd
    simp only [initialFdMap, openedBelow]
    split
    · rw [if_pos (by omega)]
    · rw [if_neg (by omega)]
  have h : FdRun S ⟨(openedBelow 3).memory, initialFdMap⟩ ⟨{0, 1, 2}, ∅⟩ := .init _ subset_rfl
  rw [hmap] at h
  exact h

/-- The guest opens one path after the other. -/
theorem fdRun_openedBelow : ∀ n : Nat, n + 3 ≤ PN_MAX_FDS →
    ∃ fds, FdRun (fun _ _ _ => True) (openedBelow (n + 3)) fds ∧ ∀ fd ∈ fds.live, fd < (n + 3 : Nat)
  | 0, _ => ⟨⟨{0, 1, 2}, ∅⟩, .openedBelow_three, by simp⟩
  | n + 1, hn => by
    obtain ⟨fds, h, hlive⟩ := fdRun_openedBelow n (by omega)
    obtain ⟨s', hexec, hmap⟩ := openedBelow_opens (n := n + 3) (by omega)
    have hfresh : OpensFresh (openingHost (n + 3 : Nat)) fds.live := by
      rintro path oflag cmode fd ho
      cases ho
      exact ⟨by omega, fun hfd => by simpa using hlive _ hfd⟩
    have h' := (h.opens _ _ hfresh trivial hexec).guest (openedBelow (n + 1 + 3)).memory
    rw [hmap] at h'
    refine ⟨_, h', fun fd hfd => ?_⟩
    have ho : hostOpened (openingHost (n + 3 : Nat)) [2048, 0, 0, 4096] (openedBelow (n + 3)) = some ((n + 3 : Nat) : Int) := rfl
    rw [ho] at hfd
    rcases Finset.mem_insert.mp hfd with rfl | hfd
    · omega
    · have := hlive fd hfd
      omega

/-- A guest that has closed nothing opens and closes a path: the descriptors are accounted for. -/
theorem no_descriptor_leaked_one : ∃ s fds, FdRun SlotFree s fds ∧ fds.opened.Nonempty ∧ Accounted s fds ∧
    ∀ host args r s', OpensFresh host fds.live → SlotFree s host args →
      PNFsBuiltin.filenameOpen.exec true host args s = .ok (r, s') → r ≠ 0 → fds.opens (hostOpened host args s) = fds := by
  obtain ⟨s', hexec, -⟩ := openedBelow_opens (n := 3) (by decide)
  have hfresh : OpensFresh (openingHost (3 : Nat)) {0, 1, 2} := by
    rintro path oflag cmode fd ho
    cases ho
    decide
  have h₀ : FdRun SlotFree _ _ := .openedBelow_three
  have h := h₀.opens _ _ hfresh (.inl ⟨3, by decide, by decide⟩) hexec
  exact ⟨_, _, h, ⟨3, Finset.mem_insert_self ..⟩, no_descriptor_leaked h⟩

/-- With all slots taken, an open that succeeds on the host returns EMFILE, and the descriptor is in no slot. -/
theorem full_table_leaks : ∃ s fds host args, FdRun (fun _ _ _ => True) s fds ∧ OpensFresh host fds.live ∧
    PNFsBuiltin.filenameOpen.exec true host args s = .ok (PN_EMFILE, s) ∧ ¬Accounted s (fds.opens (hostOpened host args s)) := by
  obtain ⟨fds, h, hlive⟩ := fdRun_openedBelow 997 (by decide)
  have hexec : PNFsBuiltin.filenameOpen.exec true (openingHost 1000) [2048, 0, 0, 4096] (openedBelow 1000) =
      .ok (PN_EMFILE, openedBelow 1000) := by
    have hpath : pnMemoryCheckCstr (openedBelow 1000).memory 2048 = .ok [] := rfl
    have hfind : (List.range PN_MAX_FDS).find? (fun fd => (openedBelow 1000).fdMap fd = -1) = none := by
      refine List.find?_eq_none.mpr fun fd hfd => ?_
      have hlt : fd < 1000 := List.mem_range.mp hfd
      simp only [openedBelow, if_pos hlt]
      simp
    have hargs : [(2048 : PNRuntimeValue), 0, 0, 4096].length = 4 := rfl
    have hp : pnArg [2048, 0, 0, 4096] 0 4 = 2048 := rfl
    simp only [PNFsBuiltin.exec, pnCheck_bind hargs, pnFilesystemFilenameOpen, hp, hpath, ok_bind, Bool.not_true,
      Bool.false_eq_true, if_false, openingHost, hfind]
  have hfresh : OpensFresh (openingHost 1000) fds.live := by
    rintro path oflag cmode fd ho
    cases ho
    exact ⟨by omega, fun hfd => absurd (hlive _ hfd) (by decide)⟩
  have ho : hostOpened (openingHost 1000) [2048, 0, 0, 4096] (openedBelow 1000) = some 1000 := rfl
  refine ⟨_, fds, _, _, h, hfresh, hexec, fun hacc => ?_⟩
  rw [ho] at hacc
  obtain ⟨-, slot, hslot, heq⟩ := hacc.mapped_of_opened (Finset.mem_insert_self ..)
  have hlt : slot < 1000 := hslot
  simp only [openedBelow, if_pos hlt] at heq
  omega

end Pnacl
