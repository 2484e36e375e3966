import Pnacl.LoadAgreement
import Pnacl.Termination

/-!
# Loading a file again

`main` reads the file `--repeat-load` times and resets the module in between. `pn_module_init` sets each known function to
`PN_INVALID_FUNCTION_ID`, `pn_module_reset` sets it to zero, and the file is read from its first word on again, without the loss
of a bit (`pnModuleRead_start`). So the module that two rounds or more leave is not the one that a single load leaves
(`repeatLoad_iff`), and the difference is function 0 in the place of each intrinsic that the file does not name
(`repeatLoad_keeps`).
-/

namespace Pnacl

open Lib

/-! ## The rounds -/

/-- `pn_memory_reset`: the data and the size are kept. The bounds of the global variables are fields of the module here. -/
def pnMemoryReset (module : PNModule) : PNModule := { module with globalvarStart := 0, globalvarEnd := 0 }

/-- `pn_module_reset`: all but the memory is zero. -/
def pnModuleReset (module : PNModule) : PNModule :=
  pnMemoryReset { module with
    version := 0
    functions := []
    types := []
    numGlobalVars := 0
    globalVars := []
    values := []
    knownFunctions := fun _ => 0 }

/-- What `pn_executor_init` checks of the function that it starts. -/
def startFunctionAt (functions : List PNFunction) (startFunctionId : Nat) : Except Stop (Nat × PNFunction) := do
  pnCheck (startFunctionId ≠ PN_INVALID_FUNCTION_ID) "start_function_id != PN_INVALID_FUNCTION_ID"
  match functions[startFunctionId]? with
  | none => .error (.undefined "functions out of range")
  | some function =>
    match function.instructions with
    | none => .error (.undefined "instructions that are not set")
    | some _ => do
      pnCheck (function.numArgs = 1) "start_function->num_args == 1"
      .ok (startFunctionId, function)

/-- The function that `pn_executor_init` starts. -/
def pnStartFunction (module : PNModule) : Except Stop (Nat × PNFunction) :=
  startFunctionAt module.functions (module.knownFunctions .start)

section Rounds

variable (hosts : Nat → PNHost) (dedupe : Bool) (fuel : Nat)

/-- The loop of `main` from the round `loadCount` on, with `left` rounds to go. -/
def loadRounds (times : Nat) : Nat → Nat → PNModule → PNBitStream → Except Stop PNModule
  | 0, _, module, _ => .ok module
  | left + 1, loadCount, module, bs => do
    let (rs, bs) ← pnModuleRead (hosts loadCount) dedupe fuel module bs
    if 1 < times ∧ loadCount ≠ times - 1 then do
      let bs ← pnBitstreamSeekBit bs 0
      loadRounds times left (loadCount + 1) (pnModuleReset (pnMemoryReset rs.module)) bs
    else loadRounds times left (loadCount + 1) rs.module bs

/-- What `--repeat-load=times` leaves. The count is kept in a `PNBool`, which has 8 bits. What is in memory that is not set
can be another thing in each round. -/
def repeatLoad (memory : PNMemory) (bs : PNBitStream) (times : Nat) : Except Stop PNModule :=
  loadRounds hosts dedupe fuel (times % 2 ^ 8) (times % 2 ^ 8) 0 (pnModuleInit memory) bs

end Rounds

/-- What a single load leaves. -/
def loadOnce (host : PNHost) (dedupe : Bool) (fuel : Nat) (memory : PNMemory) (bs : PNBitStream) : Except Stop PNModule := do
  let (rs, _) ← pnModuleRead host dedupe fuel (pnModuleInit memory) bs
  .ok rs.module

/-- All fields are the same, but for the bytes in memory. -/
def SameModule (module module' : PNModule) : Prop :=
  ∃ data, module' = { module with memory := { module.memory with data := data } }

/-- Both stop for the same reason, or they leave the same module, from which the executor starts in the same way. -/
def LeavesTheSame (x y : Except Stop PNModule) : Prop :=
  Agree (fun module module' => SameModule module module' ∧ pnStartFunction module' = pnStartFunction module) x y

section Rounds

variable {hosts : Nat → PNHost} {host : PNHost} {dedupe : Bool} {fuel times : Nat} {module module' : PNModule} {memory : PNMemory}
  {bs bs' : PNBitStream} {rs rs' : PNReadState}

theorem SameModule.refl (module : PNModule) : SameModule module module := ⟨module.memory.data, rfl⟩

theorem SameModule.start (h : SameModule module module') : pnStartFunction module' = pnStartFunction module := by
  obtain ⟨data, rfl⟩ := h
  rfl

theorem leavesTheSame_ok : LeavesTheSame (.ok module) (.ok module') ↔ SameModule module module' := by
  constructor
  · intro h
    cases h with
    | ok h => exact h.1
  · intro h
    exact .ok ⟨h, h.start⟩

theorem LeavesTheSame.refl (x : Except Stop PNModule) : LeavesTheSame x x := by
  cases x with
  | ok module => exact leavesTheSame_ok.mpr (.refl module)
  | error e => exact .error e

/-- A round that begins with zeros, beside the first. -/
theorem alikeModules_reset (h : module.memory.size = memory.size) :
    AlikeModules memory.size (pnModuleInit memory) (pnModuleReset (pnMemoryReset module)) := by
  obtain ⟨_, _, _, _, _, _, _, ⟨data, size⟩, _, _⟩ := module
  obtain rfl : size = memory.size := h
  exact ⟨⟨fun _ => 0, data, rfl, fun _ => .inr ⟨rfl, rfl⟩, fun _ _ => .inl rfl, rfl, rfl⟩, fun _ h => (List.not_mem_nil h).elim, rfl⟩

/-- No file names `PN_INTRINSIC_NULL`, so its function is what it was before the file was read. -/
theorem null_of_init (h : pnModuleRead host dedupe fuel (pnModuleInit memory) bs = .ok (rs, bs')) :
    rs.module.knownFunctions .null = PN_INVALID_FUNCTION_ID := by
  have hread : Agree _ (pnModuleRead host dedupe fuel (pnModuleInit memory) bs) _ :=
    pnModuleRead_agree (alikeModules_reset (show (pnModuleInit memory).memory.size = memory.size from rfl))
  rw [h] at hread
  obtain ⟨_, _, ⟨⟨known, data, _, hk⟩, _⟩, _⟩ := hread.ok_left
  exact hk.null.1

theorem null_of_reset (h : pnModuleRead host dedupe fuel (pnModuleReset (pnMemoryReset module)) bs = .ok (rs, bs')) :
    rs.module.knownFunctions .null = 0 := by
  have hread : Agree _ _ (pnModuleRead host dedupe fuel (pnModuleReset (pnMemoryReset module)) bs) :=
    pnModuleRead_agree (alikeModules_reset (show module.memory.size = module.memory.size from rfl))
  rw [h] at hread
  obtain ⟨_, _, ⟨⟨known, data, hm, hk⟩, _⟩, _⟩ := hread.ok_right
  dsimp only at hm
  rw [hm]
  exact hk.null.2

/-- One round, with `left` rounds behind it. -/
theorem loadRounds_succ {left loadCount : Nat} (htimes : times = loadCount + left + 1) :
    loadRounds hosts dedupe fuel times (left + 1) loadCount module bs =
      pnModuleRead (hosts loadCount) dedupe fuel module bs >>= fun x =>
        if left = 0 then .ok x.1.module
        else pnBitstreamSeekBit x.2 0 >>= fun bs =>
          loadRounds hosts dedupe fuel times left (loadCount + 1) (pnModuleReset (pnMemoryReset x.1.module)) bs := by
  rw [loadRounds]
  congr 1
  funext x
  dsimp only
  by_cases hleft : left = 0
  · rw [if_neg (by omega), if_pos hleft, hleft, loadRounds]
  · rw [if_pos (by omega), if_neg hleft]

/-- A load that was not the first leaves function 0 for `PN_INTRINSIC_NULL`. -/
theorem null_of_rounds : ∀ {left loadCount : Nat} {module : PNModule} {bs : PNBitStream}, times = loadCount + left + 1 →
    loadRounds hosts dedupe fuel times (left + 1) loadCount (pnModuleReset (pnMemoryReset module)) bs = .ok module' →
    module'.knownFunctions .null = 0 := by
  intro left
  induction left with
  | zero =>
    intro loadCount module bs htimes h
    rw [loadRounds_succ htimes] at h
    obtain ⟨⟨rs, bs'⟩, hread, h⟩ := bind_eq_ok.mp h
    cases h
    exact null_of_reset hread
  | succ left ih =>
    intro loadCount module bs htimes h
    rw [loadRounds_succ htimes] at h
    obtain ⟨x, _, h⟩ := bind_eq_ok.mp h
    rw [if_neg (Nat.succ_ne_zero left)] at h
    obtain ⟨_, _, h⟩ := bind_eq_ok.mp h
    exact ih (by omega) h

/-- After two rounds or more the table of the known functions is another one. -/
theorem not_leavesTheSame {left : Nat} (hleft : left ≠ 0)
    (hread : pnModuleRead (hosts 0) dedupe fuel (pnModuleInit memory) bs = .ok (rs, bs')) :
    ¬LeavesTheSame (.ok rs.module) (loadRounds hosts dedupe fuel (left + 1) (left + 1) 0 (pnModuleInit memory) bs) := by
  intro h
  obtain ⟨module', hrounds, ⟨data, rfl⟩, _⟩ := h.ok_left
  obtain ⟨left, rfl⟩ := Nat.exists_eq_succ_of_ne_zero hleft
  rw [loadRounds_succ (by omega), hread, ok_bind, if_neg hleft] at hrounds
  obtain ⟨_, _, hrounds⟩ := bind_eq_ok.mp hrounds
  have hround : left.succ + 1 = 0 + 1 + left + 1 := by omega
  have hzero := null_of_rounds hround hrounds
  exact absurd ((null_of_init hread).symm.trans hzero) (by decide)

/-- **Loading again leaves what loading once leaves** if and only if there is one round, or the file is not loaded at all, or
there is no round and the file leaves the module empty. -/
theorem repeatLoad_iff (hosts : Nat → PNHost) (dedupe : Bool) (fuel : Nat) (memory : PNMemory) (bs : PNBitStream) (times : Nat) :
    LeavesTheSame (loadOnce (hosts 0) dedupe fuel memory bs) (repeatLoad hosts dedupe fuel memory bs times) ↔
      times % 2 ^ 8 = 1 ∨
      (times % 2 ^ 8 ≠ 0 ∧ ∀ module, loadOnce (hosts 0) dedupe fuel memory bs ≠ .ok module) ∨
      (times % 2 ^ 8 = 0 ∧
        ∃ module, loadOnce (hosts 0) dedupe fuel memory bs = .ok module ∧ SameModule module (pnModuleInit memory)) := by
  unfold repeatLoad
  obtain htimes | ⟨left, htimes⟩ : times % 2 ^ 8 = 0 ∨ ∃ left, times % 2 ^ 8 = left + 1 :=
    (Nat.eq_zero_or_pos _).imp id fun h => ⟨_, (Nat.succ_pred_eq_of_pos h).symm⟩
  · rw [htimes, loadRounds]
    constructor
    · intro h
      obtain ⟨module, hload, hs, _⟩ := h.ok_right
      exact .inr (.inr ⟨rfl, module, hload, hs⟩)
    · rintro (h | ⟨h, _⟩ | ⟨_, module, hload, hs⟩)
      · cases h
      · exact absurd rfl h
      · rw [hload]
        exact leavesTheSame_ok.mpr hs
  · rw [htimes]
    unfold loadOnce
    cases hread : pnModuleRead (hosts 0) dedupe fuel (pnModuleInit memory) bs with
    | error e =>
      rw [loadRounds_succ (by omega), hread]
      exact ⟨fun _ => .inr (.inl ⟨Nat.succ_ne_zero left, fun _ h => by cases h⟩), fun _ => .error e⟩
    | ok x =>
      obtain ⟨rs, bs'⟩ := x
      rw [ok_bind]
      by_cases hleft : left = 0
      · rw [loadRounds_succ (by omega), hread, ok_bind, if_pos hleft]
        exact ⟨fun _ => .inl (by omega), fun _ => .refl _⟩
      · refine iff_of_false (not_leavesTheSame hleft hread) ?_
        rintro (h | ⟨_, h⟩ | ⟨h, _⟩)
        · omega
        · exact h _ rfl
        · cases h

/-! ## What the rounds keep -/

theorem pnModuleRead_ends (hfuel : 2 ^ 66 < fuel) (module : PNModule) (hi : bs.Inv) (hs : bs.Short) :
    Avoids (· = Stop.fuel) (pnModuleRead host dedupe fuel module bs) fun x => bs.SameFile x.2 := by
  refine Avoids.bind (pnHeaderRead_header hi) fun bs₁ h₁ => ?_
  refine Avoids.bind (read_proceeds h₁.1 2) fun x h₂ => ?_
  obtain ⟨entry, bs₂⟩ := x
  dsimp only
  split
  · exact .error (by simp)
  refine Avoids.bind (readVbr_proceeds h₂.2.inv 8) fun x h₃ => ?_
  obtain ⟨blockId, bs₃⟩ := x
  refine Avoids.bind_ok (NoFuel.avoids .check).2 fun _ _ => ?_
  have hfile := h₁.2.trans (h₂.2.file.trans h₃.2.file)
  refine Avoids.bind (readBlock_proceeds (pnModuleBlock_halts hfuel) hfuel h₃.2.inv (hs.sameFile hfile) ?_ ?_) fun x hx => ?_
  · exact fun _ _ h => (List.not_mem_nil h).elim
  · exact fun _ h => (List.not_mem_nil h).elim
  · exact .ok (hfile.trans hx.2.file)

/-- The stream with the first word of its file. -/
def filled (data : Nat → UInt8) (dataLen : Nat) : PNBitStream :=
  ⟨data, dataLen, loadU32 data 0, if 4 < dataLen then 32 else dataLen * 8, 0⟩

variable {data : Nat → UInt8} {dataLen word bits : Nat}

theorem fill_start (hlen : 0 < dataLen) : pnBitstreamFillCurword ⟨data, dataLen, word, bits, 0⟩ = .ok (filled data dataLen) := by
  unfold pnBitstreamFillCurword filled
  simp only [Nat.zero_shiftRight, Nat.zero_add, Nat.sub_zero]
  by_cases hlong : 4 < dataLen
  · rw [if_pos hlong, if_pos hlong]
  · rw [if_neg hlong, if_neg hlong, pnCheck, require_bind (Nat.zero_le _), if_neg (by omega), cAssert, require_bind (by omega)]

theorem seekBit_start (hlen : 0 < dataLen) (hf : (pnBitstreamInit data dataLen).SameFile bs) :
    pnBitstreamSeekBit bs 0 = .ok (filled data dataLen) := by
  obtain ⟨d, len, word, bits, offset⟩ := bs
  obtain ⟨rfl, rfl⟩ : d = data ∧ len = dataLen := hf
  have hdown : pnAlignDown 0 32 = 0 := by decide
  rw [pnBitstreamSeekBit, hdown, fill_start hlen]
  rfl

theorem filled_bits (hlen : 0 < dataLen) : 8 ≤ (filled data dataLen).curwordBits := by
  unfold filled
  dsimp only
  split <;> omega

theorem filled_inv (hlen : 0 < dataLen) (hlt : dataLen < 2 ^ 29) : (filled data dataLen).Inv := by
  obtain ⟨bs, hfill, hi, -⟩ := fillCurword_spec (pnBitstreamInit data dataLen) hlt rfl (Nat.zero_le _) (Nat.two_pow_pos 32)
  obtain rfl : filled data dataLen = bs := Except.ok.inj ((fill_start hlen).symm.trans hfill)
  exact hi

/-- Whether the word is there or is read now, the first byte is the same. -/
theorem read_start (hlen : 0 < dataLen) (hlt : dataLen < 2 ^ 29) :
    pnBitstreamRead (filled data dataLen) 8 = pnBitstreamRead (pnBitstreamInit data dataLen) 8 := by
  have hbits : 8 - 0 ≤ (filled data dataLen).curwordBits := filled_bits hlen
  have hskip : ¬8 ≤ (pnBitstreamInit data dataLen).curwordBits := Nat.not_le.mpr (Nat.succ_pos 7)
  have hfill : pnBitstreamFillCurword ⟨data, dataLen, 0, 0, (0 + 0) % 2 ^ 32⟩ = .ok (filled data dataLen) := fill_start hlen
  obtain ⟨bs, hfrac, -⟩ := readFracBits_spec (filled_inv hlen hlt) hbits
  have hbyte : bitsAt (filled data dataLen).bit (filled data dataLen).bitOffset (8 - 0) < 2 ^ 32 :=
    (bitsAt_lt _ _ _).trans (by decide)
  generalize bitsAt (filled data dataLen).bit (filled data dataLen).bitOffset (8 - 0) = v at hfrac hbyte
  have hfrac' : pnBitstreamReadFracBits (filled data dataLen) 8 = .ok (v, bs) := hfrac
  rw [pnBitstreamRead, pnBitstreamRead, cAssert, require_bind (by decide), require_bind (by decide), if_pos hbits, hfrac',
    if_neg hskip]
  change _ = (pnBitstreamFillCurword ⟨data, dataLen, 0, 0, (0 + 0) % 2 ^ 32⟩ >>= fun b =>
    pnCheck (8 - 0 ≤ b.curwordBits) "bits_left <= bs->curword_bits" >>= fun _ =>
    pnBitstreamReadFracBits b (8 - 0) >>= fun x => .ok (0 ||| (x.1 <<< 0) % 2 ^ 32, x.2))
  rw [hfill, ok_bind, pnCheck, require_bind hbits, hfrac, ok_bind]
  simp only [Nat.shiftLeft_zero, Nat.mod_eq_of_lt hbyte, Nat.zero_or]

/-- A file that is read from the start again is read as it was. -/
theorem pnModuleRead_start (hlen : 0 < dataLen) (hlt : dataLen < 2 ^ 29) (module : PNModule) :
    pnModuleRead host dedupe fuel module (filled data dataLen) =
      pnModuleRead host dedupe fuel module (pnBitstreamInit data dataLen) := by
  simp only [pnModuleRead, pnHeaderRead, readSignature, read_start hlen hlt]

/-- The load of a file without a byte stops. -/
theorem length_pos_of_load (h : pnModuleRead host dedupe fuel module (pnBitstreamInit data dataLen) = .ok (rs, bs')) :
    0 < dataLen := by
  by_contra hlen
  obtain rfl : dataLen = 0 := by omega
  obtain ⟨bs₁, hheader, _⟩ := bind_eq_ok.mp h
  obtain ⟨bs₂, hsignature, _⟩ := bind_eq_ok.mp hheader
  obtain ⟨x, hread, _⟩ := bind_eq_ok.mp hsignature
  have hstop := pnBitstreamRead_past (pnBitstreamInit_inv data (Nat.two_pow_pos 29)) (show 8 ≤ 32 by decide)
    (show 8 * 0 < 0 + 8 by decide)
  rw [hstop] at hread
  cases hread

/-- The rounds that begin with the first word of the file. -/
theorem rounds_rest {bs₁ : PNBitStream} (hread : pnModuleRead host dedupe fuel (pnModuleInit memory) bs = .ok (rs, bs'))
    (hseek : pnBitstreamSeekBit bs' 0 = .ok bs₁)
    (hagain : ∀ module, pnModuleRead host dedupe fuel module bs₁ = pnModuleRead host dedupe fuel module bs) :
    ∀ {left loadCount : Nat} {module : PNModule}, times = loadCount + left + 1 →
      AlikeModules memory.size (pnModuleInit memory) module →
      ∃ module', loadRounds (fun _ => host) dedupe fuel times (left + 1) loadCount module bs₁ = .ok module' ∧
        AlikeModules memory.size rs.module module' := by
  intro left
  induction left with
  | zero =>
    intro loadCount module htimes hm
    rw [loadRounds_succ htimes, hagain]
    have hround : Agree _ (pnModuleRead host dedupe fuel (pnModuleInit memory) bs) (pnModuleRead host dedupe fuel module bs) :=
      pnModuleRead_agree hm
    rw [hread] at hround
    obtain ⟨x, hx, hm', _⟩ := hround.ok_left
    rw [hx, ok_bind, if_pos rfl]
    exact ⟨_, rfl, hm'⟩
  | succ left ih =>
    intro loadCount module htimes hm
    rw [loadRounds_succ htimes, hagain]
    have hround : Agree _ (pnModuleRead host dedupe fuel (pnModuleInit memory) bs) (pnModuleRead host dedupe fuel module bs) :=
      pnModuleRead_agree hm
    rw [hread] at hround
    obtain ⟨x, hx, hm', hbs⟩ := hround.ok_left
    rw [hx, ok_bind, if_neg (Nat.succ_ne_zero left), hbs, hseek, ok_bind]
    exact ih (by omega) (alikeModules_reset hm'.size_eq)

/-- The table of the known functions after a load that was not the first. -/
def PNModule.knownAgain (module : PNModule) : PNIntrinsicId → Nat := fun i =>
  if module.knownFunctions i = PN_INVALID_FUNCTION_ID then 0 else module.knownFunctions i

theorem KnownAlike.eq_knownAgain {known : PNIntrinsicId → Nat} (h : KnownAlike module known)
    (hnum : module.functions.length ≤ PN_INVALID_FUNCTION_ID) : known = module.knownAgain := by
  funext i
  unfold PNModule.knownAgain
  split
  · rename_i hi
    exact (h.unset i hi).resolve_right (Nat.not_lt.mpr hnum)
  · rename_i hi
    exact (h.entry i).resolve_right fun hzero => hi hzero.1

/-- From the second round on every intrinsic that the file does not name has function 0, and the rest of the module is as it
was. -/
theorem repeatLoad_again (hfuel : 2 ^ 66 < fuel) (hlen : dataLen + 4 ≤ 2 ^ 29) (htimes : 1 < times % 2 ^ 8)
    (h : loadOnce host dedupe fuel memory (pnBitstreamInit data dataLen) = .ok module)
    (hnum : module.functions.length ≤ PN_INVALID_FUNCTION_ID) : ∃ data',
      repeatLoad (fun _ => host) dedupe fuel memory (pnBitstreamInit data dataLen) times = .ok
        { module with knownFunctions := module.knownAgain, memory := { module.memory with data := data' } } := by
  obtain ⟨⟨rs, bs'⟩, hread, hmodule⟩ := bind_eq_ok.mp h
  cases hmodule
  have hpos := length_pos_of_load hread
  have hlt : dataLen < 2 ^ 29 := by omega
  have hi : (pnBitstreamInit data dataLen).Inv := pnBitstreamInit_inv data hlt
  have hfile := (pnModuleRead_ends hfuel (pnModuleInit memory) hi hlen).1 _ hread
  have hseek := seekBit_start hpos hfile
  obtain ⟨left, hleft⟩ : ∃ left, times % 2 ^ 8 = left + 1 + 1 := ⟨times % 2 ^ 8 - 2, by omega⟩
  have hround : left + 1 + 1 = 0 + 1 + left + 1 := by omega
  have hsize : rs.module.memory.size = memory.size := by
    have hagree : Agree _ (pnModuleRead host dedupe fuel (pnModuleInit memory) (pnBitstreamInit data dataLen)) _ :=
      pnModuleRead_agree (alikeModules_reset (show (pnModuleInit memory).memory.size = memory.size from rfl))
    rw [hread] at hagree
    obtain ⟨_, _, hm, _⟩ := hagree.ok_left
    exact hm.inLoad.size
  obtain ⟨module', hrounds, ⟨⟨known, data', rfl, hk⟩, _⟩⟩ :=
    rounds_rest hread hseek (pnModuleRead_start hpos hlt) hround (alikeModules_reset hsize)
  refine ⟨data', ?_⟩
  rw [repeatLoad, hleft, loadRounds_succ (by omega), hread, ok_bind, if_neg (Nat.succ_ne_zero left), hseek, ok_bind, hrounds,
    hk.eq_knownAgain hnum]
  rfl

/-- Function 0 is not what the executor starts when no function is `_start`. -/
theorem start_again_iff (data : Nat → UInt8) :
    pnStartFunction { module with knownFunctions := module.knownAgain, memory := { module.memory with data := data } } =
      pnStartFunction module ↔ module.knownFunctions .start ≠ PN_INVALID_FUNCTION_ID := by
  by_cases hstart : module.knownFunctions .start = PN_INVALID_FUNCTION_ID
  · have honce : pnStartFunction module = .error (.check "start_function_id != PN_INVALID_FUNCTION_ID") := by
      rw [pnStartFunction, startFunctionAt, pnCheck, require_neg (not_not.mpr hstart)]
      rfl
    have hzero : module.knownAgain .start = 0 := if_pos hstart
    refine iff_of_false ?_ (not_not.mpr hstart)
    rw [honce, pnStartFunction]
    dsimp only
    rw [hzero, startFunctionAt, pnCheck, require_bind (by decide)]
    split
    · simp
    · split
      · simp
      · unfold pnCheck require
        split <;> simp
  · have hknown : module.knownAgain .start = module.knownFunctions .start := if_neg hstart
    refine iff_of_true ?_ hstart
    rw [pnStartFunction, pnStartFunction]
    dsimp only
    rw [hknown]

/-- **What loading again keeps**: everything but the table of the known functions, in which function 0 stands for each intrinsic
that the file does not name. So the executor starts as after a single load if and only if the file names `_start`. -/
theorem repeatLoad_keeps (hfuel : 2 ^ 66 < fuel) (hlen : dataLen + 4 ≤ 2 ^ 29) (htimes : 1 < times % 2 ^ 8)
    (h : loadOnce host dedupe fuel memory (pnBitstreamInit data dataLen) = .ok module)
    (hnum : module.functions.length ≤ PN_INVALID_FUNCTION_ID) : ∃ again,
      repeatLoad (fun _ => host) dedupe fuel memory (pnBitstreamInit data dataLen) times = .ok again ∧
      SameModule { module with knownFunctions := module.knownAgain } again ∧
      (pnStartFunction again = pnStartFunction module ↔ module.knownFunctions .start ≠ PN_INVALID_FUNCTION_ID) := by
  obtain ⟨data', hload⟩ := repeatLoad_again hfuel hlen htimes h hnum
  exact ⟨_, hload, ⟨data', rfl⟩, start_again_iff data'⟩

theorem repeatLoad_keeps_branch : ∃ module again, module.knownFunctions .start = PN_INVALID_FUNCTION_ID ∧
    repeatLoad (fun _ => zeroHost) true (2 ^ 66 + 1) ⟨fun _ => 0, 2 ^ 16⟩
      (pnBitstreamInit (fun i => (branchFile 0 0 0).getD i 0) (branchFile 0 0 0).length) 2 = .ok again ∧
    pnStartFunction again ≠ pnStartFunction module := by
  have heval : (loadOnce zeroHost true (2 ^ 66 + 1) ⟨fun _ => 0, 2 ^ 16⟩
      (pnBitstreamInit (fun i => (branchFile 0 0 0).getD i 0) (branchFile 0 0 0).length)).toOption.map (fun m =>
        (m.knownFunctions .start, m.functions.length)) = some (PN_INVALID_FUNCTION_ID, 1) := by
    decide
  obtain ⟨module, h, hm⟩ := eq_ok_of_toOption heval
  obtain ⟨hstart, hlen⟩ := Prod.mk.inj hm
  obtain ⟨again, hagain, -, hiff⟩ := repeatLoad_keeps (Nat.lt_succ_self _) (by decide) (show 1 < 2 % 2 ^ 8 by decide) h
    (by rw [hlen]; decide)
  exact ⟨module, again, hstart, hagain, fun heq => hiff.mp heq hstart⟩

end Rounds

end Pnacl
