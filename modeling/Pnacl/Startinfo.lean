import Pnacl.AllocatorBlocks
import Pnacl.Environ
import Pnacl.GlobalvarLayout
import Pnacl.HeapStack
import Pnacl.Lib.Words

/-!
# The start-info block

`pn_memory_init_startinfo` writes the block that the program is started with: a table of words with the counts, the pointers to the
arguments and to the environment and one auxv pair, and the strings behind it. All offsets are checked in 32 bits only. Where the
block ends up to a page below `2 ^ 32`, it decodes to the arguments and the environment (`startinfo_decodes_iff`); otherwise the
checks can accept it, and it does not.

Offsets are from `memory->data`. The strings are `place`d one behind the other without alignment.
-/

namespace Pnacl

open Lib

/-- `PN_BUILTIN_NACL_IRT_QUERY`, behind `PN_BUILTIN_NULL`. -/
def PN_BUILTIN_NACL_IRT_QUERY : Nat := 1

/-- `pn_builtin_to_pointer`. -/
def pnBuiltinToPointer (builtinId : Nat) : Nat := builtinId * 4 % 2 ^ 32

/-- The fields of `PNMemory` that the function sets. -/
structure PNStartinfo where
  startinfoStart : Nat
  startinfoEnd : Nat
  ppapiStart : Nat
  ppapiEnd : Nat
  heapStart : Nat
  stackEnd : Nat
deriving Repr, DecidableEq

/-- A value computed as `int`. -/
def intValue (n : Nat) : Except Stop Nat := if n < 2 ^ 31 then .ok n else .error (.undefined "int overflow")

/-- `pn_string_list_count`. -/
def pnStringListCount (p : List CString) : Except Stop Nat := intValue p.length

/-- `strlen(s) + 1`. -/
def cstringSize (s : CString) : Nat := s.length + 1

/-- `pn_memory_check_pointer`, for the pointer `memory->data + p`. -/
def pnMemoryCheckPointer (memory : PNMemory) (p size : Nat) : Except Stop Unit :=
  pnMemoryCheck memory (p % 2 ^ 32) (size % 2 ^ 32)

def PNMemory.storeWord (memory : PNMemory) (p value : Nat) : PNMemory := { memory with data := storeBytes memory.data p 4 value }

/-- The loops over `argv` and `envp`: the strings go to `dataOffset`, their offsets to the words from `slot` on. -/
def copyCStrings (memory : PNMemory) (slot dataOffset : Nat) : List CString → Except Stop (Nat × PNMemory)
  | [] => .ok (dataOffset, memory)
  | arg :: rest => do
    let len := cstringSize arg
    pnMemoryCheckPointer memory dataOffset len
    let memory := { memory with data := putBytes memory.data dataOffset (arg ++ [0]) }
    copyCStrings (memory.storeWord slot dataOffset) (slot + 4) (dataOffset + len) rest

/-- `pn_memory_init_startinfo`, with what it writes. -/
def pnMemoryInitStartinfoBlock (memory : PNMemory) (globalvarEnd : Nat) (argv envp : List CString) :
    Except Stop (PNStartinfo × PNMemory) := do
  let startinfoStart := pnAlignUp globalvarEnd 4
  let argc ← pnStringListCount argv
  let envc ← pnStringListCount envp
  let auxvLength := 3
  let argvLength ← intValue (argc + 1)
  let envpLength ← intValue (envc + 1)
  let dataOffset := startinfoStart + 4 * (3 + argvLength + envpLength + auxvLength)
  pnMemoryCheckPointer memory startinfoStart (dataOffset - startinfoStart)
  let memory := ((memory.storeWord startinfoStart 0).storeWord (startinfoStart + 4) envc).storeWord (startinfoStart + 8) argc
  let memoryArgv := startinfoStart + 4 * 3
  let (dataOffset, memory) ← copyCStrings memory memoryArgv dataOffset argv
  let memory := memory.storeWord (memoryArgv + 4 * argc) 0
  let memoryEnvp := memoryArgv + 4 * (argc + 1)
  let (dataOffset, memory) ← copyCStrings memory memoryEnvp dataOffset envp
  let memory := memory.storeWord (memoryEnvp + 4 * envc) 0
  let memoryAuxv := memoryEnvp + 4 * (envc + 1)
  let memory := ((memory.storeWord memoryAuxv 32).storeWord (memoryAuxv + 4)
    (pnBuiltinToPointer PN_BUILTIN_NACL_IRT_QUERY)).storeWord (memoryAuxv + 8) 0
  let startinfoEnd := dataOffset % 2 ^ 32
  .ok (⟨startinfoStart, startinfoEnd, startinfoEnd, startinfoEnd, pnAlignUp startinfoEnd PN_PAGESIZE, memory.size⟩, memory)

/-! ## Reading the block -/

/-- The string at `p`, up to its first zero, is `s`. -/
structure CStringAt (data : Nat → UInt8) (p : Nat) (s : CString) : Prop where
  chars : ∀ i c, s[i]? = some c → data (p + i) = c ∧ c ≠ 0
  terminated : data (p + s.length) = 0

/-- The strings that the words from `slot` on point to, as ranges. -/
def stringBlocks (data : Nat → UInt8) : Nat → List CString → List PNBlock
  | _, [] => []
  | slot, s :: rest => ⟨loadBytes data slot 4, cstringSize s⟩ :: stringBlocks data (slot + 4) rest

/-- The block decodes to `argv` and `envp` according to the comment in the function, and is where `info` says; `before` is the memory
before the call. -/
structure StartinfoDecodes (before data : Nat → UInt8) (globalvarEnd : Nat) (info : PNStartinfo) (argv envp : List CString) :
    Prop where
  cleanup : loadBytes data info.startinfoStart 4 = 0
  envc : loadBytes data (info.startinfoStart + 4) 4 = envp.length
  argc : loadBytes data (info.startinfoStart + 8) 4 = argv.length
  args : ∀ i s, argv[i]? = some s → CStringAt data (loadBytes data (info.startinfoStart + 12 + 4 * i) 4) s
  argsEnd : loadBytes data (info.startinfoStart + 12 + 4 * argv.length) 4 = 0
  env : ∀ i s, envp[i]? = some s → CStringAt data (loadBytes data (info.startinfoStart + 16 + 4 * argv.length + 4 * i) 4) s
  envEnd : loadBytes data (info.startinfoStart + 16 + 4 * argv.length + 4 * envp.length) 4 = 0
  auxv : loadBytes data (info.startinfoStart + 16 + 4 * argv.length + 4 * envp.length + 4) 4 = 32
  auxvValue : loadBytes data (info.startinfoStart + 16 + 4 * argv.length + 4 * envp.length + 8) 4 =
    pnBuiltinToPointer PN_BUILTIN_NACL_IRT_QUERY
  auxvEnd : loadBytes data (info.startinfoStart + 16 + 4 * argv.length + 4 * envp.length + 12) 4 = 0
  /-- The table and the strings. -/
  inside : ∀ b ∈ ⟨info.startinfoStart, 4 * (argv.length + envp.length + 8)⟩ ::
      (stringBlocks data (info.startinfoStart + 12) argv ++ stringBlocks data (info.startinfoStart + 16 + 4 * argv.length) envp),
    info.startinfoStart ≤ b.addr ∧ b.addr + b.size ≤ info.startinfoEnd
  disjoint : (⟨info.startinfoStart, 4 * (argv.length + envp.length + 8)⟩ ::
      (stringBlocks data (info.startinfoStart + 12) argv ++
        stringBlocks data (info.startinfoStart + 16 + 4 * argv.length) envp)).Pairwise PNBlock.Disjoint
  below : ∀ i, i < globalvarEnd → data i = before i
  heap : IsLeast {p | PN_PAGESIZE ∣ p ∧ info.startinfoEnd ≤ p} info.heapStart

/-! ## What is written -/

variable {memory memory' : PNMemory} {slot d e start : Nat} {strs argv envp : List CString} {ws : List Nat}

/-- The strings with their offsets, and where the last one ends. -/
def placeCStrings (d : Nat) (strs : List CString) : List (Nat × CString) := place (fun _ => 1) cstringSize d strs
def endCStrings (d : Nat) (strs : List CString) : Nat := placeEnd (fun _ => 1) cstringSize d strs

/-- What the table says about strings from `d` on. -/
def stringPointers (d : Nat) (strs : List CString) : List Nat := (placeCStrings d strs).map fun p => p.1 % 2 ^ 32

/-- The characters of the strings, with the terminating zeros. -/
def HoldsCStrings (data : Nat → UInt8) (d : Nat) (strs : List CString) : Prop :=
  ∀ p ∈ placeCStrings d strs, ∀ i c, (p.2 ++ [0])[i]? = some c → data (p.1 + i) = c

theorem endCStrings_cons (d : Nat) (s : CString) (strs : List CString) :
    endCStrings d (s :: strs) = endCStrings (d + cstringSize s) strs := by
  simp [endCStrings, placeEnd]

theorem placeCStrings_cons (d : Nat) (s : CString) (strs : List CString) :
    placeCStrings d (s :: strs) = (d, s) :: placeCStrings (d + cstringSize s) strs := by
  simp [placeCStrings, place]

theorem stringPointers_cons (d : Nat) (s : CString) (strs : List CString) :
    stringPointers d (s :: strs) = d % 2 ^ 32 :: stringPointers (d + cstringSize s) strs := by
  rw [stringPointers, placeCStrings_cons]
  rfl

theorem le_endCStrings (d : Nat) (strs : List CString) : d ≤ endCStrings d strs := le_placeEnd (fun _ => Nat.one_pos) d strs

theorem stringPointers_length (d : Nat) (strs : List CString) : (stringPointers d strs).length = strs.length := by
  induction strs generalizing d with
  | nil => rfl
  | cons s strs ih =>
    rw [stringPointers_cons, List.length_cons, List.length_cons, ih]

/-- A memory that differs outside the strings holds them too. -/
theorem HoldsCStrings.congr {data data' : Nat → UInt8} (h : HoldsCStrings data d strs)
    (hm : SameBytes data data' d (endCStrings d strs)) : HoldsCStrings data' d strs := by
  rintro ⟨o, s⟩ hp i c hi
  obtain ⟨h₁, h₂⟩ := mem_place (fun _ => Nat.one_pos) hp
  have hlt := (List.getElem?_eq_some_iff.mp hi).1
  rw [List.length_append, List.length_singleton] at hlt
  have hend : o + i < endCStrings d strs := by
    refine Nat.lt_of_lt_of_le ?_ h₂
    simpa [cstringSize] using hlt
  exact (hm (o + i) (by omega) hend).trans (h _ hp i c hi)

/-- **The loop.** The strings lie one behind the other, the words say where modulo `2 ^ 32`, and nothing else changes. -/
theorem copyCStrings_spec (h : copyCStrings memory slot d strs = .ok (e, memory')) (hsep : slot + 4 * strs.length ≤ d) :
    e = endCStrings d strs ∧ memory'.size = memory.size ∧ WordsAt memory'.data 4 slot (stringPointers d strs) ∧
      HoldsCStrings memory'.data d strs ∧
      ∀ i, i < slot ∨ slot + 4 * strs.length ≤ i ∧ i < d ∨ e ≤ i → memory'.data i = memory.data i := by
  induction strs generalizing memory slot d with
  | nil =>
    cases h
    exact ⟨rfl, rfl, trivial, List.forall_mem_nil _, fun _ _ => rfl⟩
  | cons arg rest ih =>
    obtain ⟨-, -, h⟩ := bind_eq_ok.mp h
    rw [List.length_cons] at hsep
    obtain ⟨he, hsize, hwords, hholds, hframe⟩ := ih h (by omega)
    have hd := le_endCStrings (d + cstringSize arg) rest
    rw [← he] at hd
    have hlen : (arg ++ [0]).length = cstringSize arg := by simp [cstringSize]
    refine ⟨by rw [he, endCStrings_cons], hsize, ?_, ?_, fun i hi => ?_⟩
    · rw [stringPointers_cons]
      refine ⟨?_, hwords⟩
      rw [← loadBytes_storeBytes (putBytes memory.data d (arg ++ [0])) slot 4 d]
      exact loadBytes_congr fun i _ hi => hframe i (.inl hi)
    · rw [HoldsCStrings, placeCStrings_cons]
      intro p hp i c hi
      rcases List.mem_cons.mp hp with rfl | hp
      · have hlt := (List.getElem?_eq_some_iff.mp hi).1
        rw [hlen] at hlt
        rw [hframe (d + i) (.inr (.inl ⟨by omega, by omega⟩))]
        exact (storeBytes_outside (by omega)).trans (putBytes_inside hi)
      · exact hholds p hp i c hi
    · rw [List.length_cons] at hi
      rw [hframe i (by omega)]
      refine (storeBytes_outside (by omega)).trans (putBytes_outside ?_)
      rw [hlen]
      omega

/-- The loop behind words that are there. -/
theorem copyCStrings_append (hw : WordsAt memory.data 4 start ws)
    (h : copyCStrings memory (start + 4 * ws.length) d strs = .ok (e, memory'))
    (hsep : start + 4 * ws.length + 4 * strs.length ≤ d) :
    WordsAt memory'.data 4 start (ws ++ stringPointers d strs) := by
  obtain ⟨-, -, hwords, -, hframe⟩ := copyCStrings_spec h hsep
  exact wordsAt_append.mpr ⟨hw.congr fun i _ hi => hframe i (.inl hi), hwords⟩

/-- The words of the table. -/
def startinfoWords (base : Nat) (argv envp : List CString) : List Nat :=
  [0, envp.length, argv.length] ++ stringPointers base argv ++ [0] ++ stringPointers (endCStrings base argv) envp ++ [0] ++ [32] ++
    [pnBuiltinToPointer PN_BUILTIN_NACL_IRT_QUERY] ++ [0]

/-- What the function leaves behind. -/
structure StartinfoWritten (memory memory' : PNMemory) (globalvarEnd : Nat) (argv envp : List CString) (info : PNStartinfo) :
    Prop where
  start : info.startinfoStart = pnAlignUp globalvarEnd 4
  guard : PN_MEMORY_GUARD_SIZE ≤ info.startinfoStart
  words : WordsAt memory'.data 4 info.startinfoStart
    (startinfoWords (info.startinfoStart + 4 * (argv.length + envp.length + 8)) argv envp)
  strings : HoldsCStrings memory'.data (info.startinfoStart + 4 * (argv.length + envp.length + 8)) (argv ++ envp)
  startinfoEnd : info.startinfoEnd =
    endCStrings (info.startinfoStart + 4 * (argv.length + envp.length + 8)) (argv ++ envp) % 2 ^ 32
  heapStart : info.heapStart = pnAlignUp info.startinfoEnd PN_PAGESIZE
  below : ∀ i, i < info.startinfoStart → memory'.data i = memory.data i

theorem intValue_eq_ok {n m : Nat} : intValue n = .ok m ↔ n < 2 ^ 31 ∧ m = n := by
  unfold intValue
  split
  next h => exact ⟨fun he => ⟨h, (Except.ok.inj he).symm⟩, fun he => by rw [he.2]⟩
  next h => exact ⟨fun he => (by cases he), fun he => absurd he.1 h⟩

theorem storeWord_snoc (p v : Nat) (hw : WordsAt memory.data 4 start ws) (hp : p = start + 4 * ws.length) (hv : v < 2 ^ 32) :
    WordsAt (memory.storeWord p v).data 4 start (ws ++ [v]) := by
  subst hp
  exact hw.snoc hv

theorem storeWord_outside {p v i : Nat} (h : i < p ∨ p + 4 ≤ i) : (memory.storeWord p v).data i = memory.data i :=
  storeBytes_outside h

theorem pnAlignUp_four (x : Nat) : pnAlignUp x 4 = (x + 3) % 2 ^ 32 / 4 * 4 := and_mask (x + 3) (show 2 ≤ 32 by omega)

/-- The whole function. -/
theorem pnMemoryInitStartinfoBlock_written {globalvarEnd : Nat} {info : PNStartinfo}
    (h : pnMemoryInitStartinfoBlock memory globalvarEnd argv envp = .ok (info, memory')) :
    StartinfoWritten memory memory' globalvarEnd argv envp info := by
  obtain ⟨argc, hargc, h⟩ := bind_eq_ok.mp h
  obtain ⟨envc, henvc, h⟩ := bind_eq_ok.mp h
  obtain ⟨hargc, rfl⟩ := intValue_eq_ok.mp hargc
  obtain ⟨henvc, rfl⟩ := intValue_eq_ok.mp henvc
  obtain ⟨_, ha, h⟩ := bind_eq_ok.mp h
  obtain ⟨_, he, h⟩ := bind_eq_ok.mp h
  obtain ⟨-, rfl⟩ := intValue_eq_ok.mp ha
  obtain ⟨-, rfl⟩ := intValue_eq_ok.mp he
  obtain ⟨_, hcheck, h⟩ := bind_eq_ok.mp h
  obtain ⟨⟨d₁, m₂⟩, hargs, h⟩ := bind_eq_ok.mp h
  obtain ⟨⟨d₂, m₄⟩, henv, h⟩ := bind_eq_ok.mp h
  cases h
  have hguard := (pnMemoryCheck_eq_ok.mp hcheck).1
  have hstart : pnAlignUp globalvarEnd 4 % 2 ^ 32 = pnAlignUp globalvarEnd 4 := by
    rw [pnAlignUp_four]
    omega
  rw [hstart] at hguard
  generalize hs : pnAlignUp globalvarEnd 4 = start at *
  have hbase : start + 4 * (3 + (argv.length + 1) + (envp.length + 1) + 3) = start + 4 * (argv.length + envp.length + 8) := by
    ring
  rw [hbase] at hargs
  -- the counts
  have hw₁ : WordsAt (((memory.storeWord start 0).storeWord (start + 4) envp.length).storeWord (start + 8) argv.length).data 4 start
      [0, envp.length, argv.length] := by
    have h₀ : WordsAt memory.data 4 start [] := trivial
    have h₁ := storeWord_snoc start 0 h₀ rfl (by omega)
    have h₂ := storeWord_snoc (start + 4) envp.length h₁ rfl (by omega)
    exact storeWord_snoc (start + 8) argv.length h₂ rfl (by omega)
  have hf₁ : ∀ i, i < start ∨ start + 12 ≤ i →
      (((memory.storeWord start 0).storeWord (start + 4) envp.length).storeWord (start + 8) argv.length).data i = memory.data i := by
    intro i hi
    rw [storeWord_outside (by omega), storeWord_outside (by omega), storeWord_outside (by omega)]
  generalize ((memory.storeWord start 0).storeWord (start + 4) envp.length).storeWord (start + 8) argv.length = m₁
    at hargs hw₁ hf₁
  -- the arguments
  have hw₂ := copyCStrings_append hw₁ hargs (by simp only [List.length_cons, List.length_nil]; omega)
  obtain ⟨hd₁, -, -, hstrings₁, hf₂⟩ := copyCStrings_spec hargs (by omega)
  have hle₁ := le_endCStrings (start + 4 * (argv.length + envp.length + 8)) argv
  rw [← hd₁] at hle₁
  have hw₃ := storeWord_snoc (start + 4 * 3 + 4 * argv.length) 0 hw₂
    (by simp only [List.length_append, List.length_cons, List.length_nil, stringPointers_length]; omega) (by omega)
  have hf₃ : ∀ i, i < start + 4 * 3 + 4 * argv.length ∨ start + 4 * 3 + 4 * (argv.length + 1) ≤ i →
      (m₂.storeWord (start + 4 * 3 + 4 * argv.length) 0).data i = m₂.data i := fun i hi => storeWord_outside (by omega)
  generalize m₂.storeWord (start + 4 * 3 + 4 * argv.length) 0 = m₃ at henv hw₃ hf₃
  -- the environment
  have hlen₃ : start + 4 * ([0, envp.length, argv.length] ++ stringPointers (start + 4 * (argv.length + envp.length + 8)) argv ++
      [0]).length = start + 4 * 3 + 4 * (argv.length + 1) := by
    simp only [List.length_append, List.length_cons, List.length_nil, stringPointers_length]
    omega
  rw [← hlen₃] at henv
  have hw₄ := copyCStrings_append hw₃ henv (by rw [hlen₃]; omega)
  obtain ⟨hd₂, -, -, hstrings₂, hf₄⟩ := copyCStrings_spec henv (by rw [hlen₃]; omega)
  rw [hlen₃] at hf₄
  have hle₂ := le_endCStrings d₁ envp
  rw [← hd₂] at hle₂
  have hlen₄ : start + 4 * ([0, envp.length, argv.length] ++ stringPointers (start + 4 * (argv.length + envp.length + 8)) argv ++
      [0] ++ stringPointers d₁ envp).length = start + 4 * 3 + 4 * (argv.length + 1) + 4 * envp.length := by
    simp only [List.length_append, List.length_cons, List.length_nil, stringPointers_length]
    omega
  have hw₅ := storeWord_snoc (start + 4 * 3 + 4 * (argv.length + 1) + 4 * envp.length) 0 hw₄ hlen₄.symm (by omega)
  have hw₆ := storeWord_snoc (start + 4 * 3 + 4 * (argv.length + 1) + 4 * (envp.length + 1)) 32 hw₅
    (by rw [List.length_append, List.length_singleton]; omega) (by omega)
  have hw₇ := storeWord_snoc (start + 4 * 3 + 4 * (argv.length + 1) + 4 * (envp.length + 1) + 4)
    (pnBuiltinToPointer PN_BUILTIN_NACL_IRT_QUERY) hw₆
    (by rw [List.length_append, List.length_append, List.length_singleton, List.length_singleton]; omega) (by decide)
  have hw₈ := storeWord_snoc (start + 4 * 3 + 4 * (argv.length + 1) + 4 * (envp.length + 1) + 8) 0 hw₇
    (by rw [List.length_append, List.length_append, List.length_append, List.length_singleton, List.length_singleton,
      List.length_singleton]; omega) (by omega)
  have hf₅ : ∀ i, i < start ∨ start + 4 * (argv.length + envp.length + 8) ≤ i →
      ((((m₄.storeWord (start + 4 * 3 + 4 * (argv.length + 1) + 4 * envp.length) 0).storeWord
        (start + 4 * 3 + 4 * (argv.length + 1) + 4 * (envp.length + 1)) 32).storeWord
        (start + 4 * 3 + 4 * (argv.length + 1) + 4 * (envp.length + 1) + 4)
        (pnBuiltinToPointer PN_BUILTIN_NACL_IRT_QUERY)).storeWord
        (start + 4 * 3 + 4 * (argv.length + 1) + 4 * (envp.length + 1) + 8) 0).data i = m₄.data i := by
    intro i hi
    rw [storeWord_outside (by omega), storeWord_outside (by omega), storeWord_outside (by omega), storeWord_outside (by omega)]
  generalize (((m₄.storeWord (start + 4 * 3 + 4 * (argv.length + 1) + 4 * envp.length) 0).storeWord
    (start + 4 * 3 + 4 * (argv.length + 1) + 4 * (envp.length + 1)) 32).storeWord
    (start + 4 * 3 + 4 * (argv.length + 1) + 4 * (envp.length + 1) + 4)
    (pnBuiltinToPointer PN_BUILTIN_NACL_IRT_QUERY)).storeWord
    (start + 4 * 3 + 4 * (argv.length + 1) + 4 * (envp.length + 1) + 8) 0 = m₅ at hw₈ hf₅ ⊢
  subst hd₁
  refine ⟨hs.symm, hguard, hw₈, ?_, ?_, rfl, fun i hi => ?_⟩
  · rw [HoldsCStrings, placeCStrings, place_append]
    intro p hp
    rcases List.mem_append.mp hp with hp | hp
    · refine hstrings₁.congr (fun i h₁ h₂ => ?_) p hp
      rw [hf₅ i (.inr h₁), hf₄ i (.inr (.inl ⟨by omega, h₂⟩)), hf₃ i (.inr (by omega))]
    · refine hstrings₂.congr (fun i h₁ h₂ => ?_) p hp
      exact hf₅ i (.inr (by omega))
  · rw [hd₂, endCStrings, endCStrings, endCStrings, placeEnd_append]
  · replace hi : i < start := hi
    rw [hf₅ i (.inl hi), hf₄ i (.inl (by omega)), hf₃ i (.inl (by omega)), hf₂ i (.inl (by omega)), hf₁ i (.inl hi)]

theorem checkStrings_size {m₁ m₂ : PNMemory} (h : m₁.size = m₂.size) (lens : List Nat) (d : Nat) :
    checkStrings m₁ d lens = checkStrings m₂ d lens := by
  induction lens generalizing d with
  | nil => rfl
  | cons len lens ih =>
    unfold checkStrings
    simp only [pnMemoryCheck, h, ih]

/-- The checks of the loop are those of the heap's model. -/
theorem copyCStrings_check (h : copyCStrings memory slot d strs = .ok (e, memory')) :
    checkStrings memory d (strs.map cstringSize) = .ok e ∧ memory'.size = memory.size := by
  induction strs generalizing memory slot d with
  | nil =>
    cases h
    exact ⟨rfl, rfl⟩
  | cons arg rest ih =>
    obtain ⟨_, hc, h⟩ := bind_eq_ok.mp h
    obtain ⟨hr, hsize⟩ := ih h
    refine ⟨?_, hsize⟩
    rw [List.map_cons, checkStrings, bind_eq_ok]
    refine ⟨_, hc, ?_⟩
    rw [← hr]
    refine checkStrings_size ?_ _ _
    rfl

theorem checkStrings_append (lens lens' : List Nat) (d : Nat) :
    checkStrings memory d (lens ++ lens') = checkStrings memory d lens >>= fun d => checkStrings memory d lens' := by
  induction lens generalizing d with
  | nil => rfl
  | cons len lens ih =>
    rw [List.cons_append, checkStrings, checkStrings]
    cases pnMemoryCheck memory (d % 2 ^ 32) (len % 2 ^ 32) with
    | error _ => rfl
    | ok _ => exact ih _

/-- **The heap of the main thread starts where this block says.** -/
theorem pnMemoryInitStartinfoBlock_heapStart {globalvarEnd : Nat} {info : PNStartinfo}
    (h : pnMemoryInitStartinfoBlock memory globalvarEnd argv envp = .ok (info, memory')) :
    pnMemoryInitStartinfo memory globalvarEnd (argv.map cstringSize) (envp.map cstringSize) = .ok info.heapStart := by
  obtain ⟨argc, hargc, h⟩ := bind_eq_ok.mp h
  obtain ⟨envc, henvc, h⟩ := bind_eq_ok.mp h
  obtain ⟨-, rfl⟩ := intValue_eq_ok.mp hargc
  obtain ⟨-, rfl⟩ := intValue_eq_ok.mp henvc
  obtain ⟨_, ha, h⟩ := bind_eq_ok.mp h
  obtain ⟨_, he, h⟩ := bind_eq_ok.mp h
  obtain ⟨-, rfl⟩ := intValue_eq_ok.mp ha
  obtain ⟨-, rfl⟩ := intValue_eq_ok.mp he
  obtain ⟨_, hcheck, h⟩ := bind_eq_ok.mp h
  obtain ⟨⟨d₁, m₂⟩, hargs, h⟩ := bind_eq_ok.mp h
  obtain ⟨⟨d₂, m₄⟩, henv, h⟩ := bind_eq_ok.mp h
  cases h
  obtain ⟨hc₁, hsize₁⟩ := copyCStrings_check hargs
  obtain ⟨hc₂, -⟩ := copyCStrings_check henv
  have hstart : pnAlignUp globalvarEnd 4 % 2 ^ 32 = pnAlignUp globalvarEnd 4 := by
    rw [pnAlignUp_four]
    omega
  rw [pnMemoryCheckPointer, hstart, Nat.add_sub_cancel_left] at hcheck
  unfold pnMemoryInitStartinfo
  simp only [List.length_map]
  rw [hcheck, ok_bind, checkStrings_append, bind_eq_ok]
  refine ⟨d₂, bind_eq_ok.mpr ⟨d₁, ?_, ?_⟩, rfl⟩
  · exact (checkStrings_size (by rfl) _ _).trans hc₁
  · exact (checkStrings_size (by exact hsize₁.symm) _ _).trans hc₂

/-! ## The block decodes -/

/-- The parts of the table. -/
theorem StartinfoWritten.table {globalvarEnd : Nat} {info : PNStartinfo} {base : Nat}
    (hbase : base = info.startinfoStart + 4 * (argv.length + envp.length + 8))
    (h : StartinfoWritten memory memory' globalvarEnd argv envp info) :
    WordsAt memory'.data 4 info.startinfoStart [0, envp.length, argv.length] ∧
    WordsAt memory'.data 4 (info.startinfoStart + 12) (stringPointers base argv) ∧
    WordsAt memory'.data 4 (info.startinfoStart + 12 + 4 * argv.length) [0] ∧
    WordsAt memory'.data 4 (info.startinfoStart + 16 + 4 * argv.length) (stringPointers (endCStrings base argv) envp) ∧
    WordsAt memory'.data 4 (info.startinfoStart + 16 + 4 * argv.length + 4 * envp.length)
      [0, 32, pnBuiltinToPointer PN_BUILTIN_NACL_IRT_QUERY, 0] := by
  have hw := h.words
  rw [← hbase, startinfoWords, List.append_assoc, List.append_assoc, List.append_assoc, wordsAt_append, wordsAt_append, wordsAt_append,
    wordsAt_append] at hw
  simp only [List.length_append, List.length_cons, List.length_nil, stringPointers_length] at hw
  obtain ⟨⟨⟨⟨h₁, h₂⟩, h₃⟩, h₄⟩, h₅⟩ := hw
  refine ⟨h₁, h₂, ?_, ?_, ?_⟩
  · convert h₃ using 1
    omega
  · convert h₄ using 1
    omega
  · convert h₅ using 1
    · omega
    · rfl

/-- The ranges that the table tells. -/
theorem stringBlocks_eq {data : Nat → UInt8} (h : WordsAt data 4 slot (stringPointers d strs)) :
    stringBlocks data slot strs = (placeCStrings d strs).map fun p => ⟨p.1 % 2 ^ 32, cstringSize p.2⟩ := by
  induction strs generalizing slot d with
  | nil => rfl
  | cons s strs ih =>
    rw [stringPointers_cons] at h
    rw [stringBlocks, placeCStrings_cons, List.map_cons, h.1, ih h.2]

/-- Strings whose offsets, cut to 32 bits, end up to `n` lie below `n`. -/
theorem endCStrings_le {n : Nat} (hn : n < 2 ^ 32) (hd : d ≤ n)
    (h : ∀ p ∈ placeCStrings d strs, p.1 % 2 ^ 32 + cstringSize p.2 ≤ n) : endCStrings d strs ≤ n := by
  induction strs generalizing d with
  | nil => exact hd
  | cons s strs ih =>
    rw [placeCStrings_cons] at h
    rw [endCStrings_cons]
    have hs := h _ List.mem_cons_self
    simp only at hs
    exact ih (by omega) fun p hp => h p (List.mem_cons_of_mem _ hp)

/-- Where a pointer of the table leads, when nothing is cut. -/
theorem HoldsCStrings.cstringAt {data : Nat → UInt8} {i : Nat} {s : CString} (h : HoldsCStrings data d strs)
    (hw : WordsAt data 4 slot (stringPointers d strs)) (hlt : endCStrings d strs < 2 ^ 32) (hnul : ∀ s ∈ strs, 0 ∉ s)
    (hi : strs[i]? = some s) : CStringAt data (loadBytes data (slot + 4 * i) 4) s := by
  obtain ⟨o, ho⟩ : ∃ o, (placeCStrings d strs)[i]? = some (o, s) := by
    rw [placeCStrings, place_getElem?, hi]
    exact ⟨_, rfl⟩
  have hmem := List.mem_of_getElem? ho
  have hend := (mem_place (fun _ => Nat.one_pos) hmem).2
  change o + cstringSize s ≤ endCStrings d strs at hend
  have hload : loadBytes data (slot + 4 * i) 4 = o := by
    have hk : (stringPointers d strs)[i]? = some (o % 2 ^ 32) := by
      rw [stringPointers, List.getElem?_map, ho]
      rfl
    rw [hw.get hk, Nat.mod_eq_of_lt (by omega)]
  rw [hload]
  refine ⟨fun j c hj => ⟨?_, ?_⟩, ?_⟩
  · exact h _ hmem j c (by rw [List.getElem?_append_left (List.getElem?_eq_some_iff.mp hj).1, hj])
  · rintro rfl
    exact hnul s (List.mem_of_getElem? hi) (List.mem_of_getElem? hj)
  · exact h _ hmem s.length 0 (by simp)

/-- The bytes of the table and the strings. -/
def startinfoSize (argv envp : List CString) : Nat :=
  4 * (argv.length + envp.length + 8) + ((argv ++ envp).map cstringSize).sum

theorem endCStrings_eq (d : Nat) (strs : List CString) : endCStrings d strs = d + (strs.map cstringSize).sum := by
  induction strs generalizing d with
  | nil => rfl
  | cons s strs ih =>
    rw [endCStrings_cons, ih, List.map_cons, List.sum_cons]
    omega

/-- The page boundary, or 0 when it would be `2 ^ 32`. -/
theorem pnAlignUp_isLeast_iff {n : Nat} (hn : n < 2 ^ 32) :
    IsLeast {p | PN_PAGESIZE ∣ p ∧ n ≤ p} (pnAlignUp n PN_PAGESIZE) ↔ n ≤ 2 ^ 32 - 4096 := by
  constructor
  · intro h
    have hle := h.1.2
    rw [pnAlignUp_pagesize] at hle
    omega
  · intro h
    have hround : roundUp n (2 ^ 12) < 2 ^ 32 := by
      rw [roundUp]
      omega
    have := pnAlignUp_eq_roundUp (show 12 ≤ 32 by omega) hround
    rw [show PN_PAGESIZE = 2 ^ 12 from rfl, this]
    exact roundUp_isLeast (Nat.two_pow_pos 12)

/-- **The start-info block decodes** to the arguments and the environment exactly when its end, not cut to 32 bits, is at most the
last page boundary. -/
theorem startinfo_decodes_iff {globalvarEnd : Nat} {info : PNStartinfo} (hglobalvar : globalvarEnd < 2 ^ 32)
    (hnul : ∀ s ∈ argv ++ envp, 0 ∉ s)
    (h : pnMemoryInitStartinfoBlock memory globalvarEnd argv envp = .ok (info, memory')) :
    StartinfoDecodes memory.data memory'.data globalvarEnd info argv envp ↔
      pnAlignUp globalvarEnd 4 + startinfoSize argv envp ≤ 2 ^ 32 - 4096 := by
  have hw := pnMemoryInitStartinfoBlock_written h
  obtain ⟨h₁, h₂, h₃, h₄, h₅⟩ := hw.table rfl
  have hstart := hw.start
  have hend := hw.startinfoEnd
  have hstrings := hw.strings
  have hsum : endCStrings (info.startinfoStart + 4 * (argv.length + envp.length + 8)) (argv ++ envp) =
      pnAlignUp globalvarEnd 4 + startinfoSize argv envp := by
    rw [endCStrings_eq, startinfoSize, hstart]
    omega
  rw [← hsum]
  have hsplit : endCStrings (info.startinfoStart + 4 * (argv.length + envp.length + 8)) (argv ++ envp) =
      endCStrings (endCStrings (info.startinfoStart + 4 * (argv.length + envp.length + 8)) argv) envp := by
    rw [endCStrings, endCStrings, endCStrings, placeEnd_append]
  generalize hbase : info.startinfoStart + 4 * (argv.length + envp.length + 8) = base at *
  have hblocks : stringBlocks memory'.data (info.startinfoStart + 12) argv ++
      stringBlocks memory'.data (info.startinfoStart + 16 + 4 * argv.length) envp =
        (placeCStrings base (argv ++ envp)).map fun p => ⟨p.1 % 2 ^ 32, cstringSize p.2⟩ := by
    rw [stringBlocks_eq h₂, stringBlocks_eq h₄, ← List.map_append]
    congr 1
    exact (place_append ..).symm
  have hlt : info.startinfoEnd < 2 ^ 32 := by
    rw [hend]
    exact Nat.mod_lt _ (Nat.two_pow_pos 32)
  constructor
  · intro hd
    have hheap := hd.heap
    rw [hw.heapStart, pnAlignUp_isLeast_iff hlt] at hheap
    have hinside := hd.inside
    rw [hblocks] at hinside
    refine (endCStrings_le hlt ?_ fun p hp => ?_).trans hheap
    · rw [← hbase]
      exact (hinside _ List.mem_cons_self).2
    · exact (hinside _ (List.mem_cons_of_mem _ (List.mem_map_of_mem hp))).2
  · intro hle
    have hargs : HoldsCStrings memory'.data base argv := fun p hp =>
      hstrings p (by rw [placeCStrings, place_append]; exact List.mem_append_left _ hp)
    have henv : HoldsCStrings memory'.data (endCStrings base argv) envp := fun p hp =>
      hstrings p (by rw [placeCStrings, place_append]; exact List.mem_append_right _ hp)
    have hle₁ := le_endCStrings base argv
    have hle₂ := le_endCStrings (endCStrings base argv) envp
    rw [Nat.mod_eq_of_lt (by omega)] at hend
    -- no offset is cut
    have hplace : ∀ p ∈ placeCStrings base (argv ++ envp),
        p.1 % 2 ^ 32 = p.1 ∧ base ≤ p.1 ∧ p.1 + cstringSize p.2 ≤ info.startinfoEnd := by
      intro p hp
      obtain ⟨hlo, hhi⟩ := mem_place (fun _ => Nat.one_pos) hp
      change p.1 + cstringSize p.2 ≤ endCStrings base (argv ++ envp) at hhi
      exact ⟨Nat.mod_eq_of_lt (by omega), hlo, by omega⟩
    refine ⟨h₁.1, h₁.2.1, h₁.2.2.1, fun i s hi => ?_, h₃.1, fun i s hi => ?_, h₅.1, h₅.2.1, h₅.2.2.1, h₅.2.2.2.1, ?_, ?_,
      fun i hi => hw.below i ?_, ?_⟩
    · exact hargs.cstringAt h₂ (by omega) (fun s hs => hnul s (List.mem_append_left _ hs)) hi
    · exact henv.cstringAt h₄ (by omega) (fun s hs => hnul s (List.mem_append_right _ hs)) hi
    · rw [hblocks]
      intro blk hblk
      rcases List.mem_cons.mp hblk with rfl | hblk
      · exact ⟨le_rfl, by dsimp only; omega⟩
      · obtain ⟨p, hp, rfl⟩ := List.mem_map.mp hblk
        obtain ⟨hmod, hlo, hhi⟩ := hplace p hp
        dsimp only
        rw [hmod]
        exact ⟨by omega, hhi⟩
    · rw [hblocks, List.pairwise_cons, List.pairwise_map]
      refine ⟨fun blk hblk => ?_, (place_pairwise (fun _ => Nat.one_pos) base (argv ++ envp)).imp_of_mem fun hp hq hlt => ?_⟩
      · obtain ⟨p, hp, rfl⟩ := List.mem_map.mp hblk
        obtain ⟨hmod, hlo, -⟩ := hplace p hp
        left
        dsimp only
        rw [hmod, hbase]
        exact hlo
      · left
        dsimp only
        rw [(hplace _ hp).1, (hplace _ hq).1]
        exact hlt
    · have hguard := hw.guard
      rw [hstart, pnAlignUp_four, PN_MEMORY_GUARD_SIZE] at hguard
      rw [hstart, pnAlignUp_four]
      omega
    · rw [hw.heapStart, pnAlignUp_isLeast_iff hlt, hend]
      exact hle

/-- One argument and one variable. -/
theorem startinfo_decodes_iff_two : ∃ (info : PNStartinfo) (memory' : PNMemory),
    info.startinfoStart = 2048 ∧ info.startinfoEnd = 2095 ∧ info.heapStart = 4096 ∧
    (StartinfoDecodes (fun _ => 0) memory'.data 2045 info [[112, 110]] [[65, 61, 66]] ↔
      pnAlignUp 2045 4 + startinfoSize [[112, 110]] [[65, 61, 66]] ≤ 2 ^ 32 - 4096) := by
  obtain ⟨⟨info, memory'⟩, hr, hobs⟩ := eq_ok_of_toOption
    (x := pnMemoryInitStartinfoBlock ⟨fun _ => 0, 65536⟩ 2045 [[112, 110]] [[65, 61, 66]])
    (g := fun r => (r.1.startinfoStart, r.1.startinfoEnd, r.1.heapStart)) (b := (2048, 2095, 4096)) (by decide +kernel)
  simp only [Prod.mk.injEq] at hobs
  exact ⟨info, memory', hobs.1, hobs.2.1, hobs.2.2, startinfo_decodes_iff (by decide) (by decide) hr⟩

/-- An argument of 4200 characters behind global variables that end 64 bytes below the end of almost 4 GiB: the end of the string
is cut to 32 bits in the check. -/
theorem startinfo_end_wraps : ∃ (info : PNStartinfo) (memory' : PNMemory),
    pnMemoryInitStartinfoBlock ⟨fun _ => 0, 2 ^ 32 - 4096⟩ (2 ^ 32 - 4160) [List.replicate 4200 97] [] = .ok (info, memory') ∧
      info.startinfoStart = 2 ^ 32 - 4160 ∧ info.startinfoEnd = 77 ∧
      ¬StartinfoDecodes (fun _ => 0) memory'.data (2 ^ 32 - 4160) info [List.replicate 4200 97] [] := by
  obtain ⟨⟨info, memory'⟩, hr, hobs⟩ := eq_ok_of_toOption
    (x := pnMemoryInitStartinfoBlock ⟨fun _ => 0, 2 ^ 32 - 4096⟩ (2 ^ 32 - 4160) [List.replicate 4200 97] [])
    (g := fun r => (r.1.startinfoStart, r.1.startinfoEnd)) (b := (2 ^ 32 - 4160, 77)) (by decide +kernel)
  simp only [Prod.mk.injEq] at hobs
  refine ⟨info, memory', hr, hobs.1, hobs.2, fun hd => ?_⟩
  have := (hd.inside _ List.mem_cons_self).2
  simp only [hobs.1, hobs.2] at this
  omega

end Pnacl
