import Pnacl.Vbr
import Mathlib.Data.Nat.Digits.Defs

/-!
# Chunk sequences

What the loops of `pn_bitstream.h` do with an arbitrary sequence of VBR-`n` chunks, canonical or not. The payloads are the
digits of the encoded integer `V` in base `2 ^ (n - 1)`. A chunk is read as long as its shift is below 64, but the bits of its
payload that are shifted out of the 64-bit result are lost: the loops compute `V % 2 ^ 64` (`readVbrUint64_chunks`), and the
range check of the 32-bit loops sees only that. So a value from `2 ^ 64` on is rejected if and only if its sequence is so long
that its last chunk has a shift of 64 or more (`vbr_rejects_iff`).
-/

namespace Pnacl

open Lib PNBitStream

/-- The bits of the chunks with these payloads: all but the last one have their continuation bit set. -/
def chunkBits (n : Nat) : List Nat → List Bool
  | [] => []
  | [p] => bitList n p
  | p :: q :: ps => bitList n (p + 2 ^ (n - 1)) ++ chunkBits n (q :: ps)

/-- The integer that the payloads stand for: the sum of `payload i * 2 ^ (i * (n - 1))`. -/
def chunkValue (n : Nat) (ps : List Nat) : Nat := Nat.ofDigits (2 ^ (n - 1)) ps

/-- The shift of the last chunk. -/
def lastShift (n : Nat) (ps : List Nat) : Nat := (ps.length - 1) * (n - 1)

theorem chunkValue_cons (n p : Nat) (ps : List Nat) : chunkValue n (p :: ps) = p + 2 ^ (n - 1) * chunkValue n ps :=
  Nat.ofDigits_cons

theorem chunkValue_single (n p : Nat) : chunkValue n [p] = p := Nat.ofDigits_singleton

theorem length_chunkBits (n : Nat) : ∀ ps : List Nat, (chunkBits n ps).length = n * ps.length
  | [] => rfl
  | [p] => by simp [chunkBits]
  | p :: q :: ps => by
    rw [chunkBits, List.length_append, length_bitList, length_chunkBits n (q :: ps)]
    simp only [List.length_cons]
    ring

/-! ## The loop -/

/-- A chunk at `shift`, of which the result keeps 64 bits. -/
theorem or_payload_mod {result shift p : Nat} (hr : result < 2 ^ shift) (hs : shift < 64) :
    result ||| (p <<< shift) % 2 ^ 64 = (result + p * 2 ^ shift) % 2 ^ 64 := by
  have h64 : (2 : Nat) ^ 64 = 2 ^ shift * 2 ^ (64 - shift) := by rw [← Nat.pow_add]; congr 1; omega
  have hshift : p * 2 ^ shift % 2 ^ 64 = 2 ^ shift * (p % 2 ^ (64 - shift)) := by
    rw [h64, Nat.mul_comm, Nat.mul_mod_mul_left]
  have hlt : result + 2 ^ shift * (p % 2 ^ (64 - shift)) < 2 ^ 64 := by
    have hp : p % 2 ^ (64 - shift) + 1 ≤ 2 ^ (64 - shift) := Nat.mod_lt _ (Nat.two_pow_pos _)
    have hmul := Nat.mul_le_mul_left (2 ^ shift) hp
    rw [← h64, Nat.mul_add, Nat.mul_one] at hmul
    omega
  rw [Nat.shiftLeft_eq, hshift, Nat.or_comm, ← Nat.two_pow_add_eq_or_of_lt hr, Nat.add_comm _ result, ← Nat.mod_eq_of_lt hlt,
    Nat.add_mod, ← hshift, Nat.mod_mod, ← Nat.add_mod]

/-- Two bit strings that follow each other. -/
theorem PNBitStream.At.append {bs bs' : PNBitStream} {l m : List Bool} (h : bs.At l) (hm : Moved bs l.length bs')
    (h' : bs'.At m) : bs.At (l ++ m) := by
  obtain ⟨hbits, hle⟩ := h'
  rw [hm.same.bit_eq, hm.offset] at hbits
  rw [hm.offset, hm.same.2] at hle
  refine ⟨hasBits_append.mpr ⟨h.1, hbits⟩, ?_⟩
  rw [List.length_append]
  omega

/-- The 64-bit loop on the rest of a chunk sequence. -/
theorem readVbrUint64Loop_payloads {n : Nat} (hn0 : 0 < n) (hn : n ≤ 32) : ∀ (ps : List Nat) {fuel : Nat} {bs : PNBitStream}
    {result shift : Nat}, ps ≠ [] → (∀ p ∈ ps, p < 2 ^ (n - 1)) → ps.length ≤ fuel → Inv bs → bs.At (chunkBits n ps) →
    result < 2 ^ shift → shift < 64 →
    if shift + lastShift n ps < 64 then
      ∃ bs', readVbrUint64Loop n (2 ^ (n - 1)) (2 ^ (n - 1) - 1) fuel bs result shift =
        .ok ((result + chunkValue n ps * 2 ^ shift) % 2 ^ 64, bs') ∧ Moved bs (chunkBits n ps).length bs'
    else readVbrUint64Loop n (2 ^ (n - 1)) (2 ^ (n - 1) - 1) fuel bs result shift = .error .unreachable
  | [], _, _, _, _, hne, _, _, _, _, _, _ => absurd rfl hne
  | p :: ps, 0, _, _, _, _, _, hf, _, _, _, _ => absurd hf (by simp)
  | [p], fuel + 1, bs, result, shift, _, hp, _, h, hat, hr, hs => by
    have hp' : p < 2 ^ (n - 1) := hp p (by simp)
    have hpow : 2 ^ (n - 1) ≤ 2 ^ n := Nat.pow_le_pow_right (by omega) (by omega)
    obtain ⟨bs', hrd, hm⟩ := read_fixed h hn (hp'.trans_le hpow) hat
    rw [if_pos (by simpa [lastShift] using hs)]
    refine ⟨bs', ?_, by simpa [chunkBits] using hm⟩
    rw [readVbrUint64Loop, if_pos hs, hrd, ok_bind]
    simp only [and_lo_last hp', and_hi_last hp', if_pos, or_payload_mod hr hs, chunkValue_single]
  | p :: q :: ps, fuel + 1, bs, result, shift, _, hp, hf, h, hat, hr, hs => by
    have hp' : p < 2 ^ (n - 1) := hp p (by simp)
    have hpow : 2 ^ (n - 1) * 2 = 2 ^ n := by rw [← Nat.pow_succ]; congr 1; omega
    obtain ⟨b₁, hrd, hm₁⟩ := read_fixed h hn (show p + 2 ^ (n - 1) < 2 ^ n by omega) hat.first
    have hlast : shift + lastShift n (p :: q :: ps) = shift + (n - 1) + lastShift n (q :: ps) := by
      simp only [lastShift, List.length_cons, Nat.add_sub_cancel]
      ring
    rw [readVbrUint64Loop, if_pos hs, hrd, ok_bind, hlast]
    simp only [and_lo_more hp', if_neg (and_hi_more hp'), or_payload_mod hr hs]
    rcases Nat.lt_or_ge (shift + (n - 1)) 64 with hlt | hge
    · -- the whole payload fits
      have hpow2 : 2 ^ (shift + (n - 1)) = 2 ^ (n - 1) * 2 ^ shift := by rw [Nat.pow_add, Nat.mul_comm]
      have hfit : result + p * 2 ^ shift < 2 ^ (shift + (n - 1)) := by
        have : p * 2 ^ shift + 2 ^ shift ≤ 2 ^ (n - 1) * 2 ^ shift := by
          rw [← Nat.succ_mul]
          exact Nat.mul_le_mul_right _ hp'
        omega
      have h64 : 2 ^ (shift + (n - 1)) < 2 ^ 64 := Nat.pow_lt_pow_right (by omega) hlt
      have hvalue : result + chunkValue n (p :: q :: ps) * 2 ^ shift =
          result + p * 2 ^ shift + chunkValue n (q :: ps) * 2 ^ (shift + (n - 1)) := by
        rw [chunkValue_cons, hpow2]
        ring
      have ih := readVbrUint64Loop_payloads hn0 hn (q :: ps) (by simp) (fun r hr => hp r (by simp [hr]))
        (by simpa using hf) hm₁.inv (hat.rest (by simpa using hm₁)) hfit hlt
      rw [Nat.mod_eq_of_lt (hfit.trans h64), hvalue]
      split at ih
      · rename_i hle
        obtain ⟨b₂, hl, hm₂⟩ := ih
        rw [if_pos hle]
        exact ⟨b₂, hl, by simpa [chunkBits] using hm₁.trans hm₂⟩
      · rename_i hle
        rw [if_neg hle]
        exact ih
    · -- the next chunk is not read
      rw [if_neg (by omega)]
      obtain ⟨fuel, rfl⟩ : ∃ k, fuel = k + 1 := ⟨fuel - 1, by simp only [List.length_cons] at hf; omega⟩
      rw [readVbrUint64Loop, if_neg (by omega)]

/-- **`pn_bitstream_read_vbr_uint64` on a chunk sequence**: the low 64 bits of the value, unless a chunk has a shift of 64. -/
theorem readVbrUint64_chunks {n : Nat} (hn0 : 0 < n) (hn : n ≤ 32) {ps : List Nat} (hne : ps ≠ [])
    (hp : ∀ p ∈ ps, p < 2 ^ (n - 1)) {bs : PNBitStream} (h : Inv bs) (hat : bs.At (chunkBits n ps)) :
    if lastShift n ps < 64 then
      ∃ bs', pnBitstreamReadVbrUint64 bs n = .ok (chunkValue n ps % 2 ^ 64, bs') ∧ Moved bs (chunkBits n ps).length bs'
    else pnBitstreamReadVbrUint64 bs n = .error .unreachable := by
  have hlen : ps.length ≤ 8 * bs.dataLen + 1 + 1 := by
    have hle := hat.2
    rw [length_chunkBits] at hle
    have : ps.length ≤ n * ps.length := Nat.le_mul_of_pos_left _ (by omega)
    omega
  have hloop := readVbrUint64Loop_payloads hn0 hn ps hne hp hlen h hat (show 0 < 2 ^ 0 by simp) (by omega)
  rw [readVbrUint64_eq_loop hn0 hn h]
  simpa using hloop

/-- The 32-bit values, also sign extended to 64 bits. -/
def VbrRange (V : Nat) : Prop := V < 2 ^ 32 ∨ (2 ^ 64 - 2 ^ 31 ≤ V ∧ V < 2 ^ 64)

/-- Values out of range are rejected at `bs`, where `V` is encoded, and the others are returned. -/
structure VbrRejects (n V : Nat) (bs : PNBitStream) : Prop where
  vbr : ∀ {v bs'}, pnBitstreamReadVbr bs n = .ok (v, bs') → VbrRange V ∧ v = V % 2 ^ 32
  vbrUint64 : ∀ {v bs'}, pnBitstreamReadVbrUint64 bs n = .ok (v, bs') → V < 2 ^ 64 ∧ v = V
  vbr_exit : ¬VbrRange V → ∃ e, pnBitstreamReadVbr bs n = .error e ∧ e.IsExit
  vbrUint64_exit : ¬V < 2 ^ 64 → ∃ e, pnBitstreamReadVbrUint64 bs n = .error e ∧ e.IsExit

/-- Where the 64-bit loop is right, the 32-bit loop is. -/
theorem vbrRejects_of_uint64 {n V : Nat} (hn0 : 0 < n) (hn : n ≤ 32) {bs bs' : PNBitStream} (h : Inv bs) (hV : V < 2 ^ 64)
    (hr : pnBitstreamReadVbrUint64 bs n = .ok (V, bs')) : VbrRejects n V bs := by
  have hrange : VbrRange V ↔ V < 2 ^ 32 ∨ 2 ^ 64 - 2 ^ 31 ≤ V := or_congr_right (and_iff_left hV)
  have hread : pnBitstreamReadVbr bs n = vbrRangeCheck V >>= fun _ => .ok (V % 2 ^ 32, bs') := by
    rw [pnBitstreamReadVbr_eq, readVbrGeneric_eq hn0 hn h, hr]
    rfl
  refine ⟨fun hv => ?_, fun hv => ?_, fun hout => ?_, fun hout => absurd hV hout⟩
  · rw [hread] at hv
    obtain ⟨hcheck, hv⟩ := pnCheck_bind_eq_ok.mp hv
    obtain ⟨rfl, -⟩ := Prod.mk.inj (Except.ok.inj hv)
    exact ⟨hrange.mpr ((vbrRange_iff hV).mp hcheck), rfl⟩
  · obtain ⟨rfl, -⟩ := Prod.mk.inj (Except.ok.inj (hr.symm.trans hv))
    exact ⟨hV, rfl⟩
  · refine ⟨_, hread.trans (pnCheck_bind_neg fun hcheck => hout (hrange.mpr ((vbrRange_iff hV).mp hcheck))), trivial⟩

theorem vbrRejects_of_error {n V : Nat} (hn0 : 0 < n) (hn : n ≤ 32) {bs : PNBitStream} (h : Inv bs) {e : Stop} (he : e.IsExit)
    (hr : pnBitstreamReadVbrUint64 bs n = .error e) : VbrRejects n V bs := by
  have hread : pnBitstreamReadVbr bs n = .error e := by
    rw [pnBitstreamReadVbr_eq, readVbrGeneric_eq hn0 hn h, hr]
    rfl
  refine ⟨fun hv => ?_, fun hv => ?_, fun _ => ⟨e, hread, he⟩, fun _ => ⟨e, hr, he⟩⟩
  · cases hread.symm.trans hv
  · cases hr.symm.trans hv

/-- Chunks that all continue, up to the end of the data. -/
def OpenChunks (n : Nat) (ps : List Nat) (bs : PNBitStream) : Prop :=
  bs.At (ps.flatMap fun p => bitList n (p + 2 ^ (n - 1))) ∧ 8 * bs.dataLen < bs.bitOffset + n * ps.length + n

theorem readVbrUint64Loop_open {n : Nat} (hn2 : 2 ≤ n) (hn : n ≤ 32) : ∀ (ps : List Nat) {fuel : Nat} {bs : PNBitStream}
    {result shift : Nat}, (∀ p ∈ ps, p < 2 ^ (n - 1)) → ps.length < fuel → Inv bs → OpenChunks n ps bs →
    ∃ e, readVbrUint64Loop n (2 ^ (n - 1)) (2 ^ (n - 1) - 1) fuel bs result shift = .error e ∧ e.IsExit
  | _, 0, _, _, _, _, hf, _, _ => absurd hf (Nat.not_lt_zero _)
  | [], fuel + 1, bs, result, shift, _, _, h, hopen => by
    rw [readVbrUint64Loop]
    split
    · rw [pnBitstreamRead_past h hn (by simpa using hopen.2)]
      exact ⟨_, rfl, trivial⟩
    · exact ⟨.unreachable, rfl, trivial⟩
  | p :: ps, fuel + 1, bs, result, shift, hp, hf, h, hopen => by
    have hp' : p < 2 ^ (n - 1) := hp p (by simp)
    have hpow : 2 ^ (n - 1) * 2 = 2 ^ n := by rw [← Nat.pow_succ]; congr 1; omega
    obtain ⟨hat, hend⟩ := hopen
    rw [List.flatMap_cons] at hat
    rw [readVbrUint64Loop]
    split
    · obtain ⟨b₁, hrd, hm₁⟩ := read_fixed h hn (show p + 2 ^ (n - 1) < 2 ^ n by omega) hat.first
      rw [hrd, ok_bind]
      simp only [if_neg (and_hi_more hp')]
      refine readVbrUint64Loop_open hn2 hn ps (fun r hr => hp r (by simp [hr])) (by simpa using hf) hm₁.inv
        ⟨hat.rest (by simpa using hm₁), ?_⟩
      rw [hm₁.offset, hm₁.same.2]
      rw [List.length_cons, Nat.mul_add] at hend
      omega
    · exact ⟨.unreachable, rfl, trivial⟩

/-- A sequence that the end of the data cuts off is rejected, too. -/
theorem vbrRejects_open {n V : Nat} (hn2 : 2 ≤ n) (hn : n ≤ 32) {ps : List Nat} (hp : ∀ p ∈ ps, p < 2 ^ (n - 1))
    {bs : PNBitStream} (h : Inv bs) (hopen : OpenChunks n ps bs) : VbrRejects n V bs := by
  have hlen : ps.length < 8 * bs.dataLen + 1 + 1 := by
    have hle := hopen.1.2
    rw [List.length_flatMap] at hle
    simp only [length_bitList, List.map_const', List.sum_replicate_nat] at hle
    have : ps.length ≤ ps.length * n := Nat.le_mul_of_pos_right _ (by omega)
    omega
  obtain ⟨e, hloop, he⟩ := @readVbrUint64Loop_open n hn2 hn ps _ bs 0 0 hp hlen h hopen
  exact vbrRejects_of_error (by omega) hn h he ((readVbrUint64_eq_loop (by omega) hn h).trans hloop)

/-- **Over-large VBR values are rejected exactly if they are below `2 ^ 64` or have a chunk at a shift of 64 or more.** A
sequence that does not end in the data is always rejected. -/
theorem vbr_rejects_iff (n : Nat) (hn2 : 2 ≤ n) (hn : n ≤ 32) (ps : List Nat) (hp : ∀ p ∈ ps, p < 2 ^ (n - 1))
    (bs : PNBitStream) (hbs : bs.Reachable) :
    (ps ≠ [] → bs.At (chunkBits n ps) →
      (VbrRejects n (chunkValue n ps) bs ↔ chunkValue n ps < 2 ^ 64 ∨ 64 ≤ lastShift n ps)) ∧
    (OpenChunks n ps bs → ∀ V, VbrRejects n V bs) := by
  refine ⟨fun hne hat => ?_, fun hopen V => vbrRejects_open hn2 hn hp hbs.inv hopen⟩
  have hread := readVbrUint64_chunks (by omega) hn hne hp hbs.inv hat
  split at hread
  · rename_i hlt
    obtain ⟨bs', hread, -⟩ := hread
    constructor
    · intro hrej
      exact .inl (hrej.vbrUint64 hread).1
    · intro hV
      have hV : chunkValue n ps < 2 ^ 64 := hV.resolve_right (by omega)
      rw [Nat.mod_eq_of_lt hV] at hread
      exact vbrRejects_of_uint64 (by omega) hn hbs.inv hV hread
  · rename_i hge
    exact ⟨fun _ => .inr (by omega), fun _ =>
      vbrRejects_of_error (by omega) hn hbs.inv (show Stop.unreachable.IsExit from trivial) hread⟩

/-- Thirteen chunks of six bits: twelve empty ones and the payload 16, which stands for `16 * 2 ^ 60`. -/
def farChunks : PNBitStream :=
  pnBitstreamInit (fun i => [0x20, 0x08, 0x82, 0x20, 0x08, 0x82, 0x20, 0x08, 0x82, 0x10].getD i 0) 10

/-- Both loops return 0 for `2 ^ 64`. -/
theorem vbr_accepts_too_large :
    farChunks.At (chunkBits 6 (List.replicate 12 0 ++ [16])) ∧ chunkValue 6 (List.replicate 12 0 ++ [16]) = 2 ^ 64 ∧
      (pnBitstreamReadVbr farChunks 6).toOption.map Prod.fst = some 0 ∧
      (pnBitstreamReadVbrUint64 farChunks 6).toOption.map Prod.fst = some 0 ∧
      ¬VbrRejects 6 (chunkValue 6 (List.replicate 12 0 ++ [16])) farChunks := by
  have hread : (pnBitstreamReadVbrUint64 farChunks 6).toOption.map Prod.fst = some 0 := by decide +kernel
  refine ⟨⟨by decide +kernel, by decide +kernel⟩, by decide, by decide +kernel, hread, fun hrej => ?_⟩
  obtain ⟨⟨v, bs'⟩, hok, -⟩ := eq_ok_of_toOption hread
  exact absurd (hrej.vbrUint64 hok).1 (by decide)

/-- A sequence with two chunks more than the value 1 needs. -/
theorem vbr_rejects_iff_padded : VbrRejects 4 1 (pnBitstreamInit (fun i => [0x89, 0x00].getD i 0) 2) := by
  have h := (vbr_rejects_iff 4 (by decide) (by decide) [1, 0, 0] (by decide)
    (pnBitstreamInit (fun i => [0x89, 0x00].getD i 0) 2) ⟨_, 2, [], by decide, by simp, rfl⟩).1 (by decide)
    ⟨by decide +kernel, by decide +kernel⟩
  exact h.mpr (.inl (by decide))

end Pnacl
