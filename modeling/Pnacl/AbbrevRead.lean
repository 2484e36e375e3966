import Pnacl.RecordFields

/-!
# Abbreviation definitions

What the bits of an abbreviation definition say (`Spelled`), and what `pn_abbrev_read` makes of them. The widths are read as
32-bit numbers and stored in an `int`, and an ARRAY takes its element with it even when the last slot is its own. So the result
is well formed if and only if the definition is (`abbrev_wellFormed_iff`).
-/

namespace Pnacl

open Lib PNBitStream

/-! ## The text of a definition -/

/-- A literal or a scalar encoding as the bits spell it; a width is the 32-bit number that is read. -/
inductive ScalarText where
  | literal (value : Nat)
  | fixed (width : Nat)
  | vbr (width : Nat)
  | char6
deriving Repr, DecidableEq

/-- What one turn of the loop of `pn_abbrev_read` takes from the stream. -/
inductive AbbrevText where
  | scalar (s : ScalarText)
  | array (elt : ScalarText)
  | blob
deriving Repr, DecidableEq

/-- The operation that is stored: `num_bits` is an `int`. -/
def ScalarText.op : ScalarText → PNAbbrevOp
  | literal value => .literal value
  | fixed width => .fixed (Int.bmod width (2 ^ 32))
  | vbr width => .vbr (Int.bmod width (2 ^ 32))
  | char6 => .char6

def AbbrevText.ops : AbbrevText → List PNAbbrevOp
  | scalar s => [s.op]
  | array elt => [.array, elt.op]
  | blob => [.blob]

/-- The bits from the first to the second stream spell a literal or a scalar encoding. -/
inductive ScalarText.Spelled : PNBitStream → ScalarText → PNBitStream → Prop
  | literal {bs b₁ b₂ : PNBitStream} {flag value : Nat} (hflag : pnBitstreamRead bs 1 = .ok (flag, b₁)) (hset : flag ≠ 0)
      (hvalue : pnBitstreamReadVbr b₁ 8 = .ok (value, b₂)) : Spelled bs (.literal value) b₂
  | fixed {bs b₁ b₂ b₃ : PNBitStream} {width : Nat} (hflag : pnBitstreamRead bs 1 = .ok (0, b₁))
      (henc : pnBitstreamRead b₁ 3 = .ok (1, b₂)) (hwidth : pnBitstreamReadVbr b₂ 5 = .ok (width, b₃)) :
      Spelled bs (.fixed width) b₃
  | vbr {bs b₁ b₂ b₃ : PNBitStream} {width : Nat} (hflag : pnBitstreamRead bs 1 = .ok (0, b₁))
      (henc : pnBitstreamRead b₁ 3 = .ok (2, b₂)) (hwidth : pnBitstreamReadVbr b₂ 5 = .ok (width, b₃)) :
      Spelled bs (.vbr width) b₃
  | char6 {bs b₁ b₂ : PNBitStream} (hflag : pnBitstreamRead bs 1 = .ok (0, b₁))
      (henc : pnBitstreamRead b₁ 3 = .ok (4, b₂)) : Spelled bs .char6 b₂

/-- The encoding of an operation that is not scalar. -/
def SpelledEncoding (bs : PNBitStream) (encoding : Nat) (bs' : PNBitStream) : Prop :=
  ∃ b, pnBitstreamRead bs 1 = .ok (0, b) ∧ pnBitstreamRead b 3 = .ok (encoding, bs')

/-- The bits spell these operations, one after the other. -/
inductive Spelled : PNBitStream → List AbbrevText → PNBitStream → Prop
  | nil {bs : PNBitStream} : Spelled bs [] bs
  | scalar {bs b₁ bs' : PNBitStream} {s : ScalarText} {rest : List AbbrevText} (hs : s.Spelled bs b₁)
      (hrest : Spelled b₁ rest bs') : Spelled bs (.scalar s :: rest) bs'
  | array {bs b₁ b₂ bs' : PNBitStream} {elt : ScalarText} {rest : List AbbrevText} (henc : SpelledEncoding bs 3 b₁)
      (helt : elt.Spelled b₁ b₂) (hrest : Spelled b₂ rest bs') : Spelled bs (.array elt :: rest) bs'
  | blob {bs b₁ bs' : PNBitStream} {rest : List AbbrevText} (henc : SpelledEncoding bs 5 b₁) (hrest : Spelled b₁ rest bs') :
      Spelled bs (.blob :: rest) bs'

/-! ## Reading it -/

/-- `PN_CHECK(op->num_bits <= 32)` passes. -/
def ScalarText.Passes : ScalarText → Prop
  | fixed width | vbr width => width < 2 ^ 32 ∧ Int.bmod width (2 ^ 32) ≤ 32
  | literal _ | char6 => True

def AbbrevText.Passes : AbbrevText → Prop
  | scalar s | array s => s.Passes
  | blob => True

theorem readVbr_lt {bs bs' : PNBitStream} {n v : Nat} (h : Inv bs) (hr : pnBitstreamReadVbr bs n = .ok (v, bs')) : v < 2 ^ 32 := by
  obtain ⟨w, -, -, rfl⟩ := pnBitstreamReadVbr_ok h hr
  exact Nat.mod_lt _ (by norm_num)

/-- A scalar is stored as it is spelled; of the others the encoding is reported. -/
theorem readScalarOp_spelled {bs bs' : PNBitStream} {x : Except Nat PNAbbrevOp} (h : Inv bs)
    (hr : readScalarOp bs = .ok (x, bs')) : Inv bs' ∧
      ((∃ s : ScalarText, x = .ok s.op ∧ s.Spelled bs bs' ∧ s.Passes) ∨ ∃ e, x = .error e ∧ SpelledEncoding bs e bs') := by
  obtain ⟨⟨flag, b₁⟩, hflag, hr⟩ := bind_eq_ok.mp hr
  have hi₁ := ((tracks_read 1).effect h hflag).1
  dsimp only at hr
  split at hr
  · rename_i hset
    obtain ⟨⟨value, b₂⟩, hvalue, hr⟩ := bind_eq_ok.mp hr
    obtain ⟨rfl, rfl⟩ := Prod.mk.inj (Except.ok.inj hr)
    exact ⟨((tracks_readVbr 8).effect hi₁ hvalue).1, .inl ⟨.literal value, rfl, .literal hflag hset hvalue, trivial⟩⟩
  · rename_i hset
    obtain rfl : flag = 0 := not_not.mp hset
    obtain ⟨⟨encoding, b₂⟩, henc, hr⟩ := bind_eq_ok.mp hr
    have hi₂ := ((tracks_read 3).effect hi₁ henc).1
    dsimp only at hr
    split at hr
    · obtain ⟨⟨width, b₃⟩, hwidth, hr⟩ := bind_eq_ok.mp hr
      obtain ⟨hle, hr⟩ := pnCheck_bind_eq_ok.mp hr
      obtain ⟨rfl, rfl⟩ := Prod.mk.inj (Except.ok.inj hr)
      exact ⟨((tracks_readVbr 5).effect hi₂ hwidth).1,
        .inl ⟨.fixed width, rfl, .fixed hflag henc hwidth, readVbr_lt hi₂ hwidth, hle⟩⟩
    · obtain ⟨⟨width, b₃⟩, hwidth, hr⟩ := bind_eq_ok.mp hr
      obtain ⟨hle, hr⟩ := pnCheck_bind_eq_ok.mp hr
      obtain ⟨rfl, rfl⟩ := Prod.mk.inj (Except.ok.inj hr)
      exact ⟨((tracks_readVbr 5).effect hi₂ hwidth).1,
        .inl ⟨.vbr width, rfl, .vbr hflag henc hwidth, readVbr_lt hi₂ hwidth, hle⟩⟩
    · obtain ⟨rfl, rfl⟩ := Prod.mk.inj (Except.ok.inj hr)
      exact ⟨hi₂, .inl ⟨.char6, rfl, .char6 hflag henc, trivial⟩⟩
    · obtain ⟨rfl, rfl⟩ := Prod.mk.inj (Except.ok.inj hr)
      exact ⟨hi₂, .inr ⟨encoding, rfl, b₁, hflag, henc⟩⟩

/-- The loop stores the operations as they are spelled. -/
theorem readAbbrevOps_spelled {numOps : Nat} : ∀ {fuel : Nat} {bs bs' : PNBitStream} {ops ops' : List PNAbbrevOp}, Inv bs →
    readAbbrevOps numOps fuel bs ops = .ok (ops', bs') →
    ∃ text, Spelled bs text bs' ∧ ops' = ops ++ text.flatMap AbbrevText.ops ∧ ∀ t ∈ text, t.Passes
  | 0, _, _, _, _, _, hr => by cases hr
  | fuel + 1, bs, bs', ops, ops', h, hr => by
    rw [readAbbrevOps] at hr
    split at hr
    · obtain ⟨⟨x, b₁⟩, hx, hr⟩ := bind_eq_ok.mp hr
      obtain ⟨hi₁, hx⟩ := readScalarOp_spelled h hx
      rcases hx with ⟨s, rfl, hs, hpass⟩ | ⟨e, rfl, henc⟩
      · obtain ⟨text, htext, hops, hall⟩ := readAbbrevOps_spelled hi₁ hr
        exact ⟨.scalar s :: text, .scalar hs htext, by simpa [AbbrevText.ops] using hops, List.forall_mem_cons.mpr ⟨hpass, hall⟩⟩
      · dsimp only at hr
        split at hr
        · rename_i heq
          cases heq
        · rename_i heq
          obtain rfl := Except.error.inj heq
          obtain ⟨⟨y, b₂⟩, hy, hr⟩ := bind_eq_ok.mp hr
          obtain ⟨hi₂, hy⟩ := readScalarOp_spelled hi₁ hy
          rcases hy with ⟨elt, rfl, helt, hpass⟩ | ⟨e, rfl, -⟩
          · obtain ⟨text, htext, hops, hall⟩ := readAbbrevOps_spelled hi₂ hr
            exact ⟨.array elt :: text, .array henc helt htext, by simpa [AbbrevText.ops] using hops,
              List.forall_mem_cons.mpr ⟨hpass, hall⟩⟩
          · cases hr
        · rename_i heq
          obtain rfl := Except.error.inj heq
          obtain ⟨text, htext, hops, hall⟩ := readAbbrevOps_spelled hi₁ hr
          exact ⟨.blob :: text, .blob henc htext, by simpa [AbbrevText.ops] using hops, List.forall_mem_cons.mpr ⟨trivial, hall⟩⟩
        · cases hr
    · obtain ⟨rfl, rfl⟩ := Prod.mk.inj (Except.ok.inj hr)
      exact ⟨[], .nil, by simp, by simp⟩

/-! ## Well-formed abbreviations -/

/-- An abbreviation of `numOps` operations with widths that can be read, in which every ARRAY has its element. -/
structure PNAbbrev.WellFormed (numOps : Nat) (ab : PNAbbrev) : Prop where
  count : ab.ops.length = numOps
  slots : ∀ {i : Nat} {op}, ab.ops[i]? = some op → i < numOps
  fixed : ∀ {w}, .fixed w ∈ ab.ops → 0 ≤ w ∧ w ≤ 32
  vbr : ∀ {w}, .vbr w ∈ ab.ops → 1 ≤ w ∧ w ≤ 32
  array : ∀ {i : Nat}, ab.ops[i]? = some .array → ∃ elt, ab.ops[i + 1]? = some elt ∧ elt.Scalar

/-- The slots that an operation needs. -/
def AbbrevText.slots : AbbrevText → Nat
  | scalar _ | blob => 1
  | array _ => 2

/-- A width below `2 ^ 31`, and not 0 for a VBR. -/
def ScalarText.WidthOk : ScalarText → Prop
  | fixed width => width < 2 ^ 31
  | vbr width => 0 < width ∧ width < 2 ^ 31
  | literal _ | char6 => True

def AbbrevText.WidthOk : AbbrevText → Prop
  | scalar s | array s => s.WidthOk
  | blob => True

/-- The definition announces the slots that its operations need, the element of an ARRAY included, and its widths are right. -/
structure Fits (numOps : Nat) (text : List AbbrevText) : Prop where
  slots : (text.map AbbrevText.slots).sum = numOps
  widths : ∀ t ∈ text, t.WidthOk

theorem length_ops (text : List AbbrevText) : (text.flatMap AbbrevText.ops).length = (text.map AbbrevText.slots).sum := by
  induction text with
  | nil => rfl
  | cons t text ih =>
    simp only [List.flatMap_cons, List.length_append, List.map_cons, List.sum_cons, ih]
    cases t <;> rfl

theorem ScalarText.op_scalar (s : ScalarText) : s.op.Scalar := by
  cases s <;> trivial

/-- Every ARRAY is followed by its element. -/
theorem array_followed : ∀ {text : List AbbrevText} {i : Nat}, (text.flatMap AbbrevText.ops)[i]? = some .array →
    ∃ elt, (text.flatMap AbbrevText.ops)[i + 1]? = some elt ∧ elt.Scalar
  | [], _, h => by cases h
  | .scalar s :: text, 0, h => by
    have hop : s.op = .array := Option.some.inj h
    have hs := s.op_scalar
    rw [hop] at hs
    exact hs.elim
  | .scalar s :: text, i + 1, h => @array_followed text i h
  | .array elt :: text, 0, h => ⟨elt.op, rfl, elt.op_scalar⟩
  | .array elt :: text, 1, h => by
    have hop : elt.op = .array := Option.some.inj h
    have hs := elt.op_scalar
    rw [hop] at hs
    exact hs.elim
  | .array elt :: text, i + 2, h => @array_followed text i h
  | .blob :: text, 0, h => by cases h
  | .blob :: text, i + 1, h => @array_followed text i h

/-- A width that passes the check is in range if and only if it is not taken for a negative number. -/
theorem width_range {width : Nat} (hlt : width < 2 ^ 32) (hle : Int.bmod width (2 ^ 32) ≤ 32) :
    (0 ≤ Int.bmod width (2 ^ 32) ↔ width < 2 ^ 31) ∧ (1 ≤ Int.bmod width (2 ^ 32) ↔ 0 < width ∧ width < 2 ^ 31) := by
  rcases Nat.lt_or_ge width (2 ^ 31) with h | h
  · have hb : Int.bmod width (2 ^ 32) = width := by
      rw [Int.bmod_def, Int.emod_eq_of_lt (by omega) (by omega), if_pos (by omega)]
    rw [hb]
    omega
  · have hb : Int.bmod width (2 ^ 32) = width - 2 ^ 32 := by
      rw [Int.bmod_def, Int.emod_eq_of_lt (by omega) (by omega), if_neg (by omega)]
      rfl
    rw [hb]
    omega

/-- The widths of the stored operations. -/
def PNAbbrevOp.WidthOk : PNAbbrevOp → Prop
  | .fixed w => 0 ≤ w ∧ w ≤ 32
  | .vbr w => 1 ≤ w ∧ w ≤ 32
  | .literal _ | .array | .char6 | .blob => True

theorem ScalarText.widthOk_iff {s : ScalarText} (h : s.Passes) : s.op.WidthOk ↔ s.WidthOk := by
  cases s with
  | literal value => exact Iff.rfl
  | fixed width => exact (and_iff_left h.2).trans (width_range h.1 h.2).1
  | vbr width => exact (and_iff_left h.2).trans (width_range h.1 h.2).2
  | char6 => exact Iff.rfl

theorem AbbrevText.widthOk_iff {t : AbbrevText} (h : t.Passes) : (∀ op ∈ t.ops, op.WidthOk) ↔ t.WidthOk := by
  cases t with
  | scalar s => simpa [AbbrevText.ops, AbbrevText.WidthOk] using ScalarText.widthOk_iff h
  | array elt =>
    have harray : PNAbbrevOp.array.WidthOk := trivial
    simpa [AbbrevText.ops, AbbrevText.WidthOk, harray] using ScalarText.widthOk_iff h
  | blob =>
    have hblob : PNAbbrevOp.blob.WidthOk := trivial
    simp [AbbrevText.ops, hblob, AbbrevText.WidthOk]

theorem wellFormed_iff {numOps : Nat} {text : List AbbrevText} (hall : ∀ t ∈ text, t.Passes) :
    (PNAbbrev.mk (text.flatMap AbbrevText.ops)).WellFormed numOps ↔ Fits numOps text := by
  have hwidths : (∀ op ∈ text.flatMap AbbrevText.ops, op.WidthOk) ↔ ∀ t ∈ text, t.WidthOk := by
    simp only [List.forall_mem_flatMap]
    exact forall₂_congr fun t ht => AbbrevText.widthOk_iff (hall t ht)
  constructor
  · intro h
    refine ⟨(length_ops text).symm.trans h.count, hwidths.mp fun op hop => ?_⟩
    cases op with
    | fixed w => exact h.fixed hop
    | vbr w => exact h.vbr hop
    | _ => trivial
  · intro h
    have hcount : (text.flatMap AbbrevText.ops).length = numOps := (length_ops text).trans h.slots
    have hops := hwidths.mpr h.widths
    exact ⟨hcount, fun hop => hcount ▸ (List.getElem?_eq_some_iff.mp hop).1, fun hop => hops _ hop, fun hop => hops _ hop,
      array_followed⟩

/-- **A parsed abbreviation is well formed if and only if its definition is**: it announces the slots that it needs, and no width
is `2 ^ 31` or more, or 0 for a VBR. -/
theorem abbrev_wellFormed_iff (bs : PNBitStream) (hbs : bs.Reachable) (ab : PNAbbrev) (bs' : PNBitStream)
    (h : pnAbbrevRead bs = .ok (ab, bs')) :
    ∃ numOps text b, pnBitstreamReadVbr bs 5 = .ok (numOps, b) ∧ Spelled b text bs' ∧
      (ab.WellFormed numOps ↔ Fits numOps text) := by
  obtain ⟨⟨numOps, b⟩, hnum, h⟩ := bind_eq_ok.mp h
  obtain ⟨⟨ops, b'⟩, hops, h⟩ := bind_eq_ok.mp h
  obtain ⟨rfl, rfl⟩ := Prod.mk.inj (Except.ok.inj h)
  obtain ⟨text, htext, hops', hall⟩ := readAbbrevOps_spelled ((tracks_readVbr 5).effect hbs.inv hnum).1 hops
  rw [List.nil_append] at hops'
  subst hops'
  exact ⟨numOps, text, b, hnum, htext, wellFormed_iff hall⟩

/-- One operation is announced, and it is an ARRAY with a literal as its element. -/
def arrayInLastSlot : PNBitStream := pnBitstreamInit (fun i => [0xC1, 0x02, 0x00].getD i 0) 3

theorem array_in_last_slot :
    (pnBitstreamReadVbr arrayInLastSlot 5).toOption.map Prod.fst = some 1 ∧
      (pnAbbrevRead arrayInLastSlot).toOption.map Prod.fst = some ⟨[.array, .literal 0]⟩ ∧
      ¬(PNAbbrev.mk [.array, .literal 0]).WellFormed 1 := by
  refine ⟨by decide +kernel, by decide +kernel, fun h => ?_⟩
  exact absurd h.count (by decide)

/-- A single FIXED of width 3. -/
theorem abbrev_wellFormed_iff_fixed :
    ∃ ab bs' numOps text b, pnAbbrevRead (pnBitstreamInit (fun i => [0x41, 0x06].getD i 0) 2) = .ok (ab, bs') ∧
      pnBitstreamReadVbr (pnBitstreamInit (fun i => [0x41, 0x06].getD i 0) 2) 5 = .ok (numOps, b) ∧ Spelled b text bs' ∧
      (ab.WellFormed numOps ↔ Fits numOps text) := by
  have hread : (pnAbbrevRead (pnBitstreamInit (fun i => [0x41, 0x06].getD i 0) 2)).toOption.map Prod.fst =
      some ⟨[.fixed 3]⟩ := by decide +kernel
  obtain ⟨⟨ab, bs'⟩, hok, -⟩ := eq_ok_of_toOption hread
  obtain ⟨numOps, text, b, h⟩ := abbrev_wellFormed_iff _ ⟨_, 2, [], by decide, by simp, rfl⟩ ab bs' hok
  exact ⟨ab, bs', numOps, text, b, hok, h⟩

end Pnacl
