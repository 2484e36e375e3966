import Pnacl.EndlessFile
import Pnacl.LayoutAgrees
import Pnacl.RecordFraming
import Pnacl.TypeEquations

/-!
# Reading comes to an end

Every loop of the reader ends: the loops over the entries of a block because the stream moves on by the width of an
abbreviation id, or that width is 0 and the block ends; the loops over the fields of a record because of `PNRecordReader.left`,
which counts the operations and the array elements that are left, also where a field takes no bits and where a counter wraps.
`terminates_iff` says for which files this is so: the aligned bit offset of a file of more than 2 ^ 29 - 4 bytes can wrap.
-/

namespace Pnacl

open Lib PNBitStream FieldRule

/-! ## Streams -/

theorem pnBitstreamReadFracBits_noFuel (bs : PNBitStream) (n : Nat) : NoFuel (pnBitstreamReadFracBits bs n) :=
  .bind .cAssert fun _ _ => .bind .cAssert fun _ _ => .ok

theorem pnBitstreamFillCurword_noFuel (bs : PNBitStream) : NoFuel (pnBitstreamFillCurword bs) := by
  unfold pnBitstreamFillCurword
  dsimp only
  split
  · exact .ok
  · exact .bind .check fun _ _ => .bind .cAssert fun _ _ => .ok

theorem pnBitstreamRead_noFuel (bs : PNBitStream) (n : Nat) : NoFuel (pnBitstreamRead bs n) := by
  refine .bind .cAssert fun _ _ => ?_
  dsimp only
  split
  · exact pnBitstreamReadFracBits_noFuel bs n
  · exact (pnBitstreamFillCurword_noFuel _).bind fun _ _ => .bind .check fun _ _ =>
      (pnBitstreamReadFracBits_noFuel _ _).bind fun _ _ => .ok

theorem pnBitstreamSeekBit_noFuel (bs : PNBitStream) (off : Nat) : NoFuel (pnBitstreamSeekBit bs off) := by
  refine (pnBitstreamFillCurword_noFuel _).bind fun bs' _ => ?_
  dsimp only
  split
  · exact .ok
  · exact (pnBitstreamReadFracBits_noFuel _ _).bind fun _ _ => .ok

theorem pnBitstreamAlign32_noFuel (bs : PNBitStream) : NoFuel (pnBitstreamAlign32 bs) := pnBitstreamSeekBit_noFuel bs _

theorem pnBitstreamRead_effect {bs bs' : PNBitStream} {n v : Nat} (h : Inv bs) (hr : pnBitstreamRead bs n = .ok (v, bs')) :
    Inv bs' ∧ SameFile bs bs' ∧ bs'.bitOffset = bs.bitOffset + n ∧ v < 2 ^ n := by
  have hn : n ≤ 32 := (cAssert_bind_eq_ok.mp hr).1
  rcases pnBitstreamRead_cases h hn with ⟨w, b, hw, hlt, hi, hf, ho⟩ | ⟨e, he, -⟩
  · obtain ⟨rfl, rfl⟩ := Prod.mk.inj (Except.ok.inj (hr.symm.trans hw))
    exact ⟨hi, hf, ho, hlt⟩
  · cases hr.symm.trans he

/-- Every chunk takes bits, so there is fuel for all of them. -/
theorem readVbrUint64Loop_noFuel {n hi lo : Nat} (hn : 0 < n) : ∀ {fuel : Nat} {bs : PNBitStream} (result shift : Nat), Inv bs →
    8 * bs.dataLen < fuel + bs.bitOffset → NoFuel (readVbrUint64Loop n hi lo fuel bs result shift)
  | 0, bs, _, _, h, hfuel => by
    have := h.offset_le
    omega
  | fuel + 1, bs, result, shift, h, hfuel => by
    rw [readVbrUint64Loop]
    split
    · refine (pnBitstreamRead_noFuel _ _).bind fun x hr => ?_
      obtain ⟨piece, bs'⟩ := x
      obtain ⟨h', hfile, ho, -⟩ := pnBitstreamRead_effect h hr
      dsimp only
      split
      · exact .ok
      · refine readVbrUint64Loop_noFuel hn _ _ h' ?_
        rw [hfile.2]
        omega
    · exact .error (by simp)

theorem pnBitstreamReadVbrUint64_noFuel {bs : PNBitStream} (h : Inv bs) (n : Nat) : NoFuel (pnBitstreamReadVbrUint64 bs n) := by
  refine (pnBitstreamRead_noFuel _ _).bind fun x hr => ?_
  obtain ⟨piece, bs'⟩ := x
  obtain ⟨h', hfile, ho, -⟩ := pnBitstreamRead_effect h hr
  dsimp only
  split
  · exact .error (by simp)
  · split
    · exact .ok
    · refine readVbrUint64Loop_noFuel (by omega) _ _ h' ?_
      rw [hfile.2]
      omega

theorem vbrRangeCheck_noFuel (result : Nat) : NoFuel (vbrRangeCheck result) := .check

theorem pnBitstreamReadVbr_noFuel {bs : PNBitStream} (h : Inv bs) (n : Nat) : NoFuel (pnBitstreamReadVbr bs n) := by
  rw [pnBitstreamReadVbr_eq]
  rcases Nat.eq_zero_or_pos n with rfl | hpos
  · exact (pnBitstreamRead_noFuel _ _).bind fun _ _ => .error (by simp)
  rcases Nat.lt_or_ge 32 n with hlt | hle
  · unfold readVbrGeneric
    rw [pnBitstreamRead, cAssert_bind_neg (Nat.not_le.mpr hlt)]
    exact .error (by simp)
  · rw [readVbrGeneric_eq hpos hle h]
    exact (pnBitstreamReadVbrUint64_noFuel h n).bind fun _ _ => (vbrRangeCheck_noFuel _).bind fun _ _ => .ok

/-! ## Fields -/

theorem readFixedField_noFuel (bs : PNBitStream) (numBits : Int) : NoFuel (readFixedField bs numBits) := by
  unfold readFixedField
  split
  · exact .error (by simp)
  · exact pnBitstreamRead_noFuel _ _

theorem readChar6Field_noFuel (bs : PNBitStream) : NoFuel (readChar6Field bs) := by
  refine (pnBitstreamRead_noFuel _ _).bind fun _ _ => .bind ?_ fun _ _ => .ok
  unfold pnDecodeChar6
  split
  · exact .ok
  · exact .fatal

theorem readVbrField_noFuel {bs : PNBitStream} (h : Inv bs) (numBits : Int) : NoFuel (readVbrField bs numBits) := by
  unfold readVbrField
  split
  · exact .error (by simp)
  · exact pnBitstreamReadVbr_noFuel h _

theorem readVbrUint64Field_noFuel {bs : PNBitStream} (h : Inv bs) (numBits : Int) : NoFuel (readVbrUint64Field bs numBits) := by
  unfold readVbrUint64Field
  split
  · exact .error (by simp)
  · exact pnBitstreamReadVbrUint64_noFuel h _

theorem readArrayElement_noFuel {bs : PNBitStream} (h : Inv bs) (op : PNAbbrevOp) : NoFuel (readArrayElement bs op) := by
  cases op with
  | literal value => exact .ok
  | fixed numBits => exact readFixedField_noFuel _ _
  | vbr numBits => exact readVbrField_noFuel h _
  | char6 => exact readChar6Field_noFuel _
  | array => exact .fatal
  | blob => exact .fatal

theorem readArrayElementUint64_noFuel {bs : PNBitStream} (h : Inv bs) (op : PNAbbrevOp) :
    NoFuel (readArrayElementUint64 bs op) := by
  cases op with
  | literal value => exact .ok
  | fixed numBits => exact readFixedField_noFuel _ _
  | vbr numBits => exact readVbrUint64Field_noFuel h _
  | char6 => exact readChar6Field_noFuel _
  | array => exact .fatal
  | blob => exact .fatal

theorem pnRecordReadAbbrev_noFuel {r : PNRecordReader} (h : Inv r.bs) : NoFuel (pnRecordReadAbbrev r) := by
  unfold pnRecordReadAbbrev
  dsimp only
  split
  · exact .error (by simp)
  split
  · exact .ok
  rename_i ab _ _ op _
  cases op with
  | literal value => exact .ok
  | fixed numBits => exact (readFixedField_noFuel _ _).bind fun _ _ => .ok
  | vbr numBits => exact (readVbrField_noFuel h _).bind fun _ _ => .ok
  | char6 => exact (readChar6Field_noFuel _).bind fun _ _ => .ok
  | blob =>
    dsimp only
    split
    · exact (pnBitstreamRead_noFuel _ _).bind fun _ _ => (pnBitstreamAlign32_noFuel _).bind fun _ _ => .bind .ok fun _ _ =>
        (pnBitstreamRead_noFuel _ _).bind fun _ _ => .ok
    · exact .bind .ok fun _ _ => (pnBitstreamRead_noFuel _ _).bind fun _ _ => .ok
  | array =>
    dsimp only
    split
    · refine (pnBitstreamReadVbr_noFuel h 6).bind fun x hk => .bind .check fun _ _ => ?_
      obtain ⟨k, bs⟩ := x
      rw [ok_bind]
      dsimp only
      split
      · exact .error (by simp)
      · exact (readArrayElement_noFuel (tracks_readVbr6.effect h hk).1 _).bind fun _ _ => .ok
    · rw [ok_bind]
      dsimp only
      split
      · exact .error (by simp)
      · exact (readArrayElement_noFuel h _).bind fun _ _ => .ok

theorem pnRecordReadAbbrevUint64_noFuel {r : PNRecordReader} (h : Inv r.bs) : NoFuel (pnRecordReadAbbrevUint64 r) := by
  unfold pnRecordReadAbbrevUint64
  dsimp only
  split
  · exact .error (by simp)
  split
  · exact .ok
  rename_i ab _ _ op _
  cases op with
  | literal value => exact .ok
  | fixed numBits => exact (readFixedField_noFuel _ _).bind fun _ _ => .ok
  | vbr numBits => exact (readVbrUint64Field_noFuel h _).bind fun _ _ => .ok
  | char6 => exact (readChar6Field_noFuel _).bind fun _ _ => .ok
  | blob =>
    dsimp only
    split
    · exact (pnBitstreamRead_noFuel _ _).bind fun _ _ => (pnBitstreamAlign32_noFuel _).bind fun _ _ => .bind .ok fun _ _ =>
        (pnBitstreamRead_noFuel _ _).bind fun _ _ => .ok
    · exact .bind .ok fun _ _ => (pnBitstreamRead_noFuel _ _).bind fun _ _ => .ok
  | array =>
    dsimp only
    split
    · refine (pnBitstreamReadVbr_noFuel h 6).bind fun x hk => ?_
      obtain ⟨k, bs⟩ := x
      dsimp only
      split
      · exact .error (by simp)
      · exact (readArrayElementUint64_noFuel (tracks_readVbr6.effect h hk).1 _).bind fun _ _ => .ok
    · rw [ok_bind]
      dsimp only
      split
      · exact .error (by simp)
      · exact (readArrayElementUint64_noFuel h _).bind fun _ _ => .ok

theorem pnRecordTryReadUint32_noFuel {r : PNRecordReader} (h : Inv r.bs) : NoFuel (pnRecordTryReadUint32 r) := by
  unfold pnRecordTryReadUint32
  split
  · split
    · exact .ok
    · exact (pnBitstreamReadVbr_noFuel h 6).bind fun _ _ => .ok
  · exact pnRecordReadAbbrev_noFuel h

theorem pnRecordTryReadUint64_noFuel {r : PNRecordReader} (h : Inv r.bs) : NoFuel (pnRecordTryReadUint64 r) := by
  unfold pnRecordTryReadUint64
  split
  · split
    · exact .ok
    · exact (pnBitstreamReadVbrUint64_noFuel h 6).bind fun _ _ => .ok
  · exact pnRecordReadAbbrevUint64_noFuel h

theorem pnRecordReadCode_noFuel {r : PNRecordReader} (h : Inv r.bs) : NoFuel (pnRecordReadCode r) := by
  unfold pnRecordReadCode
  split
  · refine (pnBitstreamReadVbr_noFuel h 6).bind fun x hr => ?_
    obtain ⟨code, bs⟩ := x
    exact (pnBitstreamReadVbr_noFuel (tracks_readVbr6.effect h hr).1 6).bind fun _ _ => .ok
  · exact pnRecordReadAbbrev_noFuel h

/-! ## The fields that are left -/

/-- The elements that are left of `n` in an array or a blob: where the index has gone past the count, it wraps and the count is
read again. -/
def elementsLeft (n valueIndex : Nat) : Nat :=
  if valueIndex = 0 then 2 ^ 32 + 1 else if valueIndex < n then n - valueIndex else 2 ^ 33 + 1 - valueIndex

theorem elementsLeft_pos {n v : Nat} (hv : v < 2 ^ 32) : 0 < elementsLeft n v := by
  unfold elementsLeft
  split
  · omega
  · split <;> omega

theorem elementsLeft_le {n v : Nat} (hn : n ≤ 2 ^ 32) : elementsLeft n v ≤ 2 ^ 34 := by
  unfold elementsLeft
  split
  · omega
  · split <;> omega

theorem elementsLeft_first {n m : Nat} (hn : n ≤ 2 ^ 32) (h1 : n ≠ 1) (h0 : 0 < n) : elementsLeft n 1 < elementsLeft m 0 := by
  unfold elementsLeft
  rw [if_neg Nat.one_ne_zero, if_pos (by omega), if_pos rfl]
  omega

theorem elementsLeft_next {n v : Nat} (hv : v < 2 ^ 32) (h0 : v ≠ 0) (hn : n ≤ 2 ^ 32) (h : v + 1 ≠ n) :
    elementsLeft n ((v + 1) % 2 ^ 32) < elementsLeft n v := by
  rcases Nat.lt_or_ge (v + 1) (2 ^ 32) with hlt | hge
  · rw [Nat.mod_eq_of_lt hlt]
    unfold elementsLeft
    rw [if_neg (Nat.succ_ne_zero v), if_neg h0]
    split <;> split <;> omega
  · -- the index wraps, so it had passed the count
    obtain rfl : v = 2 ^ 32 - 1 := by omega
    unfold elementsLeft
    rw [if_pos (by decide), if_neg (by decide), if_neg (by omega)]
    decide

/-- The elements of an array whose count is `k`: without elements it has 2 ^ 32 of them. -/
def arrayCount (k : Nat) : Nat := if k = 0 then 2 ^ 32 else k

theorem arrayCount_le {k : Nat} (h : k < 2 ^ 32) : arrayCount k ≤ 2 ^ 32 := by
  unfold arrayCount
  split <;> omega

theorem arrayCount_pos (k : Nat) : 0 < arrayCount k := by
  unfold arrayCount
  split <;> omega

/-- The last element is the one that brings the index to the count. -/
theorem ne_arrayCount {k v : Nat} (hv : v < 2 ^ 32) (hk : k < 2 ^ 32) (h : (v + 1) % 2 ^ 32 ≠ k) : v + 1 ≠ arrayCount k := by
  unfold arrayCount
  split <;> omega

/-- The same for the operation that the reader stands at. -/
def PNAbbrevOp.fieldsLeft (op : PNAbbrevOp) (numValues valueIndex : Nat) : Nat :=
  match op with
  | .array => elementsLeft (arrayCount numValues) valueIndex
  | .blob => elementsLeft (numValues + 1) valueIndex
  | _ => 1

namespace PNRecordReader

/-- A bound of the fields that are left. -/
def left (r : PNRecordReader) : Nat :=
  if r.entry = pnEntryUnabbrevRecord then r.numValues - r.valueIndex
  else
    match r.abbrev with
    | none => 0
    | some ab =>
      match r.op ab with
      | none => 0
      | some op => (ab.ops.length - r.opIndex - 1) * 2 ^ 34 + op.fieldsLeft r.numValues r.valueIndex

variable {r r' : PNRecordReader} {ab : PNAbbrev} {op : PNAbbrevOp}

theorem left_eq (h : r.entry ≠ pnEntryUnabbrevRecord) (hab : r.abbrev = some ab) (hop : r.op ab = some op) :
    r.left = (ab.ops.length - r.opIndex - 1) * 2 ^ 34 + op.fieldsLeft r.numValues r.valueIndex := by
  rw [left, if_neg h, hab]
  dsimp only
  rw [hop]

theorem fieldsLeft_pos (op : PNAbbrevOp) (hc : r.Counts) : 0 < op.fieldsLeft r.numValues r.valueIndex := by
  cases op <;> first | exact Nat.one_pos | exact elementsLeft_pos hc.valueIndex_lt

theorem fieldsLeft_le (op : PNAbbrevOp) (hc : r.Counts) : op.fieldsLeft r.numValues r.valueIndex ≤ 2 ^ 34 := by
  have hm := hc.numValues_lt
  cases op with
  | array => exact elementsLeft_le (arrayCount_le hm)
  | blob => exact elementsLeft_le hm
  | _ => exact Nat.one_le_two_pow

theorem left_le (hc : r.Counts) (h : r.entry ≠ pnEntryUnabbrevRecord) (hab : r.abbrev = some ab) :
    r.left ≤ (ab.ops.length - r.opIndex) * 2 ^ 34 := by
  cases hop : r.op ab with
  | none =>
    rw [left, if_neg h, hab]
    dsimp only
    rw [hop]
    exact Nat.zero_le _
  | some op =>
    have hlt : r.opIndex < ab.ops.length := (List.getElem?_eq_some_iff.mp hop).1
    have := fieldsLeft_le op hc
    rw [left_eq h hab hop]
    omega

/-- The next operation. -/
theorem left_lt_of_op (h : r.entry ≠ pnEntryUnabbrevRecord) (hab : r.abbrev = some ab) (hop : r.op ab = some op) (hc : r.Counts)
    (hc' : r'.Counts) (he : r'.entry = r.entry) (ha : r'.abbrevs = r.abbrevs) (hi : r.opIndex < r'.opIndex) :
    r'.left < r.left := by
  have hab' : r'.abbrev = some ab := by rw [PNRecordReader.abbrev, he, ha, ← hab, PNRecordReader.abbrev]
  have hle := left_le hc' (he ▸ h) hab'
  have hpos := fieldsLeft_pos op hc
  have hlt : r.opIndex < ab.ops.length := (List.getElem?_eq_some_iff.mp hop).1
  rw [left_eq h hab hop]
  have hmul : (ab.ops.length - r'.opIndex) * 2 ^ 34 ≤ (ab.ops.length - r.opIndex - 1) * 2 ^ 34 :=
    Nat.mul_le_mul_right _ (by omega)
  omega

/-- Another element of the same operation. -/
theorem left_lt_of_element (h : r.entry ≠ pnEntryUnabbrevRecord) (hab : r.abbrev = some ab) (hop : r.op ab = some op)
    (he : r'.entry = r.entry) (ha : r'.abbrevs = r.abbrevs) (hi : r'.opIndex = r.opIndex)
    (hlt : op.fieldsLeft r'.numValues r'.valueIndex < op.fieldsLeft r.numValues r.valueIndex) : r'.left < r.left := by
  have hab' : r'.abbrev = some ab := by rw [PNRecordReader.abbrev, he, ha, ← hab, PNRecordReader.abbrev]
  have hop' : r'.op ab = some op := by rw [PNRecordReader.op, hi, ← hop, PNRecordReader.op]
  rw [left_eq h hab hop, left_eq (he ▸ h) hab' hop', hi]
  omega

end PNRecordReader

/-- **Every field that is read leaves less.** -/
theorem FieldStep.left_lt {r r' : PNRecordReader} {v : Nat} (h : FieldStep r (some v) r') (hi : Inv r.bs) (hc : r.Counts) :
    r'.left < r.left := by
  have hc' := h.counts hi hc
  have hv := hc.valueIndex_lt
  have hm := hc.numValues_lt
  cases h with
  | value h hlt _ =>
    have hnext : (r.valueIndex + 1) % 2 ^ 32 = r.valueIndex + 1 := Nat.mod_eq_of_lt (by omega)
    simp only [PNRecordReader.left, PNRecordReader.afterValue, if_pos h, hnext]
    omega
  | scalar h hab hop _ _ => exact PNRecordReader.left_lt_of_op h hab hop hc hc' rfl rfl (Nat.lt_succ_self _)
  | @arrayStart ab elt k v bs₁ bs h hab hop h0 hk _ _ =>
    by_cases hlast : (r.valueIndex + 1) % 2 ^ 32 = k
    · refine PNRecordReader.left_lt_of_op h hab hop hc hc' rfl rfl ?_
      simp only [PNRecordReader.afterElement, if_pos hlast]
      omega
    · refine PNRecordReader.left_lt_of_element h hab hop rfl rfl (if_neg hlast) ?_
      have hk32 : k < 2 ^ 32 := hc'.numValues_lt
      rw [h0] at hlast
      simp only [PNRecordReader.afterElement, PNAbbrevOp.fieldsLeft, h0]
      exact elementsLeft_first (arrayCount_le hk32) (ne_arrayCount (Nat.two_pow_pos 32) hk32 hlast).symm (arrayCount_pos k)
  | @arrayNext ab elt v bs h hab hop h0 _ _ =>
    by_cases hlast : (r.valueIndex + 1) % 2 ^ 32 = r.numValues
    · refine PNRecordReader.left_lt_of_op h hab hop hc hc' rfl rfl ?_
      simp only [PNRecordReader.afterElement, if_pos hlast]
      omega
    · refine PNRecordReader.left_lt_of_element h hab hop rfl rfl (if_neg hlast) ?_
      simp only [PNRecordReader.afterElement, PNAbbrevOp.fieldsLeft]
      exact elementsLeft_next hv h0 (arrayCount_le hm) (ne_arrayCount hv hm hlast)
  | @blobStart ab k v bs₁ bs₂ bs h hab hop h0 _ _ _ =>
    by_cases hlast : r.valueIndex = k
    · refine PNRecordReader.left_lt_of_op h hab hop hc hc' rfl rfl ?_
      simp only [PNRecordReader.afterByte, if_pos hlast]
      omega
    · refine PNRecordReader.left_lt_of_element h hab hop rfl rfl (if_neg hlast) ?_
      have hk32 : k < 2 ^ 32 := hc'.numValues_lt
      rw [h0] at hlast
      simp only [PNRecordReader.afterByte, PNAbbrevOp.fieldsLeft, h0]
      exact elementsLeft_first (by omega) (by omega) (by omega)
  | @blobNext ab v bs h hab hop h0 _ =>
    by_cases hlast : r.valueIndex = r.numValues
    · refine PNRecordReader.left_lt_of_op h hab hop hc hc' rfl rfl ?_
      simp only [PNRecordReader.afterByte, if_pos hlast]
      omega
    · refine PNRecordReader.left_lt_of_element h hab hop rfl rfl (if_neg hlast) ?_
      simp only [PNRecordReader.afterByte, PNAbbrevOp.fieldsLeft]
      exact elementsLeft_next hv h0 (by omega) (by omega)

/-! ## Going on -/

/-- The stream has moved on in its file. -/
structure PNBitStream.Follows (a b : PNBitStream) : Prop where
  inv : Inv b
  file : SameFile a b
  le : a.Short → a.bitOffset ≤ b.bitOffset

/-- The computation comes to an end, and if it returns, the stream has moved on. -/
def Proceeds {α : Type} (bs : PNBitStream) (m : Except Stop (α × PNBitStream)) (Q : α → Prop) : Prop :=
  Avoids (· = Stop.fuel) m fun x => Q x.1 ∧ bs.Follows x.2

section Proceeds

variable {α β : Type} {a b c bs : PNBitStream} {r r' : PNRecordReader} {k : Nat}

theorem PNBitStream.Follows.refl (h : Inv a) : a.Follows a := ⟨h, .refl a, fun _ => Nat.le_refl _⟩

theorem PNBitStream.Follows.trans (h : a.Follows b) (h' : b.Follows c) : a.Follows c :=
  ⟨h'.inv, h.file.trans h'.file, fun hs => (h.le hs).trans (h'.le (hs.sameFile h.file))⟩

theorem NoFuel.avoids {m : Except Stop α} (h : NoFuel m) : Avoids (· = Stop.fuel) m fun x => m = .ok x :=
  ⟨fun _ hx => hx, fun _ he hf => h (he.trans (congrArg _ hf))⟩

theorem noFuel_of_avoids {m : Except Stop α} {Q : α → Prop} (h : Avoids (· = Stop.fuel) m Q) : NoFuel m :=
  fun he => h.2 _ he rfl

/-- A stream operation that does not run out of fuel. -/
theorem Tracks.proceeds {f : PNBitStream → Except Stop (α × PNBitStream)} (hf : Tracks k f) (hi : Inv bs) (hn : NoFuel (f bs)) :
    Proceeds bs (f bs) fun _ => True := by
  refine hn.avoids.mono fun x hx => ⟨trivial, ?_⟩
  obtain ⟨hi', hfile, hle⟩ := hf.effect hi hx
  exact ⟨hi', hfile, fun hs => Nat.le_of_add_right_le (hle hs)⟩

theorem Proceeds.bind {m : Except Stop (α × PNBitStream)} {f : α × PNBitStream → Except Stop (β × PNBitStream)} {Q : α → Prop}
    {R : β → Prop} (hm : Proceeds bs m Q) (hf : ∀ x, Q x.1 → bs.Follows x.2 → Proceeds x.2 (f x) R) : Proceeds bs (m >>= f) R :=
  Avoids.bind hm fun x hx => (hf x hx.1 hx.2).mono fun _ hy => ⟨hy.1, hx.2.trans hy.2⟩

theorem FieldStep.follows {o : Option Nat} (h : FieldStep r o r') (hi : Inv r.bs) : r.bs.Follows r'.bs := by
  obtain ⟨hi', hfile, hle⟩ := h.effect hi
  exact ⟨hi', hfile, hle⟩

theorem Reads.follows (h : Reads r r') (hi : Inv r.bs) (hi' : Inv r'.bs) : r.bs.Follows r'.bs := ⟨hi', h.file hi, h.le hi⟩

/-- A field leaves less. -/
theorem FieldStep.left_add_le {o o' : Option Nat} (h : FieldStep r o' r') (ho : o'.isSome = o.isSome) (hi : Inv r.bs)
    (hc : r.Counts) : r'.left + o.toList.length ≤ r.left := by
  cases o' with
  | none =>
    obtain rfl := h.eq_of_none
    cases o with
    | none => exact Nat.le_refl _
    | some v => cases ho
  | some v =>
    have := h.left_lt hi hc
    cases o with
    | none => cases ho
    | some w => exact this

/-- Behind `base` the fields of a record are read, one after the other, to the end. -/
def endRule (base : PNBitStream) : FieldRule where
  bad e := e = .fuel
  Holds r := r.Counts ∧ base.Follows r.bs
  left := PNRecordReader.left
  Ends bs := base.Follows bs
  bad_fuel h := h
  try32 {r} h := by
    obtain ⟨hc, hb⟩ := h
    refine (pnRecordTryReadUint32_noFuel hb.inv).avoids.mono fun x hx => ?_
    obtain ⟨o', hf, ho⟩ := fieldStep_of_read32 hb.inv hx
    exact ⟨⟨hf.counts hb.inv hc, hb.trans (hf.follows hb.inv)⟩, fun _ => hf.left_add_le ho hb.inv hc⟩
  try64 {r} h := by
    obtain ⟨hc, hb⟩ := h
    refine (pnRecordTryReadUint64_noFuel hb.inv).avoids.mono fun x hx => ?_
    have hf := fieldStep_of_read hx
    have hle := hf.left_add_le rfl hb.inv hc
    exact ⟨⟨hf.counts hb.inv hc, hb.trans (hf.follows hb.inv)⟩, fun _ => Nat.le_of_add_right_le hle⟩
  back {fuel r vs r'} h hvs := by
    obtain ⟨hc, hb⟩ := h
    obtain ⟨hreads, hi', -⟩ := reads_readValues hb.inv hvs
    refine (pnBitstreamSeekBit_noFuel _ _).avoids.mono fun bs hbs => ?_
    have hback := advances_back hb.inv hreads hi' bs hbs
    exact ⟨⟨⟨hc.1, hc.2⟩, hb.trans (hback.1.follows hb.inv hback.2)⟩, fun _ => Nat.le_refl _⟩
  ends {fuel r vs r'} h hvs := by
    obtain ⟨hreads, hi', -⟩ := reads_readValues h.2.inv hvs
    exact h.2.trans (hreads.follows h.2.inv hi')

end Proceeds

/-! ## Abbreviations -/

/-- An abbreviation has at most 2 ^ 32 operations. -/
def AbbrevsBounded (abbrevs : List PNAbbrev) : Prop := ∀ ab ∈ abbrevs, ab.ops.length ≤ 2 ^ 32

section Abbrevs

variable {bs : PNBitStream}

theorem read_proceeds (h : Inv bs) (n : Nat) : Proceeds bs (pnBitstreamRead bs n) fun _ => True :=
  (tracks_read n).proceeds h (pnBitstreamRead_noFuel bs n)

theorem readVbr_proceeds (h : Inv bs) (n : Nat) : Proceeds bs (pnBitstreamReadVbr bs n) fun _ => True :=
  (tracks_readVbr n).proceeds h (pnBitstreamReadVbr_noFuel h n)

theorem Proceeds.ok {α : Type} {Q : α → Prop} {a : α} {bs' : PNBitStream} (h : Q a) (hf : bs.Follows bs') :
    Proceeds bs (.ok (a, bs')) Q := Avoids.ok ⟨h, hf⟩

theorem Proceeds.error {α : Type} {Q : α → Prop} {e : Stop} (h : e ≠ .fuel) :
    Proceeds bs (.error e : Except Stop (α × PNBitStream)) Q := Avoids.error h

theorem Proceeds.mono {α : Type} {Q Q' : α → Prop} {m : Except Stop (α × PNBitStream)} (h : Proceeds bs m Q)
    (hQ : ∀ a, Q a → Q' a) : Proceeds bs m Q' := Avoids.mono h fun x hx => ⟨hQ x.1 hx.1, hx.2⟩

/-- The stream has moved on before. -/
theorem Proceeds.after {α : Type} {Q : α → Prop} {bs' : PNBitStream} {m : Except Stop (α × PNBitStream)} (h : Proceeds bs' m Q)
    (hf : bs.Follows bs') : Proceeds bs m Q := Avoids.mono h fun _ hx => ⟨hx.1, hf.trans hx.2⟩

theorem Proceeds.check {α : Type} {Q : α → Prop} {p : Prop} [Decidable p] {c : String} {m : Except Stop (α × PNBitStream)}
    (h : p → Proceeds bs m Q) : Proceeds bs (pnCheck p c >>= fun _ => m) Q := by
  by_cases hp : p
  · rw [pnCheck_bind hp]
    exact h hp
  · rw [pnCheck_bind_neg hp]
    exact .error (by simp)

theorem readScalarOp_proceeds (h : Inv bs) : Proceeds bs (readScalarOp bs) fun _ => True := by
  refine (read_proceeds h 1).bind fun x _ h₁ => ?_
  obtain ⟨isLiteral, bs₁⟩ := x
  dsimp only
  split
  · exact (readVbr_proceeds h₁.inv 8).bind fun _ _ h₂ => .ok trivial (.refl h₂.inv)
  · refine (read_proceeds h₁.inv 3).bind fun x _ h₂ => ?_
    obtain ⟨encoding, bs₂⟩ := x
    dsimp only
    split
    · exact (readVbr_proceeds h₂.inv 5).bind fun _ _ h₃ => .check fun _ => .ok trivial (.refl h₃.inv)
    · exact (readVbr_proceeds h₂.inv 5).bind fun _ _ h₃ => .check fun _ => .ok trivial (.refl h₃.inv)
    · exact .ok trivial (.refl h₂.inv)
    · exact .ok trivial (.refl h₂.inv)

/-- Every turn appends an operation. -/
theorem readAbbrevOps_proceeds {numOps : Nat} : ∀ {fuel : Nat} {bs : PNBitStream} {ops : List PNAbbrevOp}, Inv bs →
    numOps < fuel + min ops.length numOps → ops.length ≤ numOps + 1 →
    Proceeds bs (readAbbrevOps numOps fuel bs ops) fun ops' => ops'.length ≤ numOps + 1
  | 0, bs, ops, h, hfuel, hle => by omega
  | fuel + 1, bs, ops, h, hfuel, hle => by
    rw [readAbbrevOps]
    split
    · rename_i hlt
      refine (readScalarOp_proceeds h).bind fun x _ h₁ => ?_
      obtain ⟨op, bs₁⟩ := x
      dsimp only
      split
      · refine readAbbrevOps_proceeds h₁.inv ?_ ?_ <;> rw [List.length_append, List.length_singleton] <;> omega
      · refine (readScalarOp_proceeds h₁.inv).bind fun x _ h₂ => ?_
        obtain ⟨elt, bs₂⟩ := x
        dsimp only
        split
        · refine readAbbrevOps_proceeds h₂.inv ?_ ?_ <;> rw [List.length_append, List.length_cons, List.length_singleton] <;> omega
        · exact .error (by simp)
      · refine readAbbrevOps_proceeds h₁.inv ?_ ?_ <;> rw [List.length_append, List.length_singleton] <;> omega
      · exact .error (by simp)
    · exact .ok hle (.refl h)

theorem pnAbbrevRead_proceeds (h : Inv bs) : Proceeds bs (pnAbbrevRead bs) fun ab => ab.ops.length ≤ 2 ^ 32 := by
  unfold pnAbbrevRead
  refine Avoids.bind_ok (pnBitstreamReadVbr_noFuel h 5).avoids.2 fun x hr => ?_
  obtain ⟨numOps, bs₁⟩ := x
  obtain ⟨w, -, -, rfl⟩ := pnBitstreamReadVbr_ok h hr
  have h₁ := ((readVbr_proceeds h 5).1 _ hr).2
  have hlt : w % 2 ^ 32 < 2 ^ 32 := Nat.mod_lt _ (by decide)
  refine Avoids.mono (Q := fun x => x.1.ops.length ≤ 2 ^ 32 ∧ bs₁.Follows x.2) ?_ fun x hx => ⟨hx.1, h₁.trans hx.2⟩
  refine Avoids.bind (readAbbrevOps_proceeds h₁.inv (by omega) (Nat.zero_le _)) fun x hx => ?_
  obtain ⟨ops, bs₂⟩ := x
  exact .ok ⟨Nat.le_trans hx.1 hlt, hx.2⟩

end Abbrevs

/-! ## Blocks -/

/-- The abbreviations that blockinfo has defined. -/
def PNReadState.Bounded (rs : PNReadState) : Prop := ∀ id, AbbrevsBounded (rs.context.blockAbbrevMap id)

/-- What a block reader has to do for its loop to come to an end, if there is fuel for every field. -/
structure PNBlockReader.Halts {σ : Type} (b : PNBlockReader σ) (rs : σ → PNReadState) (fuel : Nat) : Prop where
  endBlock : ∀ {s} {bs : PNBitStream}, bs.Inv → (rs s).Bounded → Proceeds bs (b.endBlock s bs) fun s' => (rs s').Bounded
  subblock : ∀ {s} {bs : PNBitStream}, bs.Inv → bs.Short → (rs s).Bounded →
    Proceeds bs (b.subblock s bs) fun s' => (rs s').Bounded
  defineAbbrev : ∀ {s ab}, (rs s).Bounded → ab.ops.length ≤ 2 ^ 32 →
    Avoids (· = Stop.fuel) (b.defineAbbrev s ab) fun s' => (rs s').Bounded
  record : ∀ {s code r}, (endRule r.bs).Ready fuel r → Proceeds r.bs (b.record s code r) fun s' => SameAbbrevs (rs s) (rs s')

section Blocks

variable {σ : Type} {host : PNHost} {b : PNBlockReader σ} {rs : σ → PNReadState} {bs : PNBitStream} {abbrevs : List PNAbbrev}
  {entry fuel : Nat}

theorem SameAbbrevs.bounded {rs rs' : PNReadState} (h : SameAbbrevs rs rs') (hb : rs.Bounded) : rs'.Bounded := by
  intro id
  rw [show rs'.context.blockAbbrevMap = _ from h]
  exact hb id

/-- Behind the code there is fuel for the fields. -/
theorem readCode_ready (hi : Inv bs) (hb : AbbrevsBounded abbrevs) (hfuel : 2 ^ 66 < fuel) :
    Avoids (· = Stop.fuel) (pnRecordReadCode (pnRecordReaderInit bs abbrevs entry)) fun x =>
      bs.Follows x.2.bs ∧ (endRule x.2.bs).Ready fuel x.2 := by
  have hn : NoFuel (pnRecordReadCode (pnRecordReaderInit bs abbrevs entry)) := pnRecordReadCode_noFuel hi
  refine hn.avoids.mono fun x h => ?_
  obtain ⟨code, r⟩ := x
  have hc : r.Counts := (pnRecordReadCode_effect (r := pnRecordReaderInit bs abbrevs entry) hi h).2.2 pnRecordReaderInit_counts
  dsimp only
  suffices bs.Follows r.bs ∧ r.left ≤ 2 ^ 66 from
    ⟨this.1, ⟨hc, .refl this.1.inv⟩, fun _ => Nat.lt_of_le_of_lt this.2 hfuel⟩
  rw [pnRecordReadCode] at h
  split at h
  · rename_i hentry
    obtain ⟨⟨c, bs₁⟩, hcode, h⟩ := bind_eq_ok.mp h
    obtain ⟨⟨n, bs₂⟩, hcount, h⟩ := bind_eq_ok.mp h
    obtain ⟨-, rfl⟩ := Prod.mk.inj (Except.ok.inj h)
    have h₁ : bs.Follows bs₁ := ((readVbr_proceeds hi 6).1 _ hcode).2
    have h₂ : bs₁.Follows bs₂ := ((readVbr_proceeds h₁.inv 6).1 _ hcount).2
    refine ⟨h₁.trans h₂, ?_⟩
    have hlt := hc.numValues_lt
    rw [PNRecordReader.left, if_pos hentry]
    omega
  · rename_i hentry
    obtain ⟨o, hf, ho⟩ := fieldStep_of_abbrev32 hi hentry h
    refine ⟨hf.follows hi, ?_⟩
    have hle := hf.left_add_le ho hi pnRecordReaderInit_counts
    have hinit : (pnRecordReaderInit bs abbrevs entry).left ≤ 2 ^ 66 := by
      cases hab : (pnRecordReaderInit bs abbrevs entry).abbrev with
      | none =>
        rw [PNRecordReader.left, if_neg hentry, hab]
        exact Nat.zero_le _
      | some ab =>
        have hlen := hb ab (List.mem_of_getElem? hab)
        have hl := PNRecordReader.left_le pnRecordReaderInit_counts hentry hab
        rw [show (pnRecordReaderInit bs abbrevs entry).opIndex = 0 from rfl, Nat.sub_zero] at hl
        exact Nat.le_trans hl (Nat.mul_le_mul_right (2 ^ 34) hlen)
    omega

/-- **The loop over the entries of a block ends.** An entry takes bits, or its id is that of the end. -/
theorem readEntries_proceeds (hb : b.Halts rs fuel) (hfuel : 2 ^ 66 < fuel) {codelen : Nat} : ∀ {n : Nat} {s : σ}
    {abbrevs : List PNAbbrev} {bs : PNBitStream}, Inv bs → bs.Short → (rs s).Bounded → AbbrevsBounded abbrevs →
    8 * bs.dataLen < n + bs.bitOffset → Proceeds bs (readEntries host b codelen n s abbrevs bs) fun s' => (rs s').Bounded
  | 0, s, abbrevs, bs, hi, _, _, _, hn => by
    have := hi.offset_le
    omega
  | n + 1, s, abbrevs, bs, hi, hs, hc, ha, hn => by
    rw [readEntries]
    split
    · exact .error (by simp)
    refine Avoids.bind_ok (pnBitstreamRead_noFuel bs codelen).avoids.2 fun x hr => ?_
    obtain ⟨entry, bs₁⟩ := x
    obtain ⟨hi₁, hfile, ho, hlt⟩ := pnBitstreamRead_effect hi hr
    have h₁ : bs.Follows bs₁ := ((read_proceeds hi codelen).1 _ hr).2
    dsimp only
    split
    · exact (hb.endBlock hi₁ hc).after h₁
    rename_i hend
    have hpos : 0 < codelen := by
      by_contra h0
      obtain rfl : codelen = 0 := by omega
      exact hend (Nat.lt_one_iff.mp hlt)
    -- what is behind the entry
    have hgo : ∀ {s' : σ} {abbrevs' : List PNAbbrev} {bs₂ : PNBitStream}, bs₁.Follows bs₂ → (rs s').Bounded →
        AbbrevsBounded abbrevs' → Proceeds bs (readEntries host b codelen n s' abbrevs' bs₂) fun s'' => (rs s'').Bounded := by
      intro s' abbrevs' bs₂ h₂ hc' ha'
      have hfile₂ := (hfile.trans h₂.file).2
      have hs₂ := h₂.le (hs.sameFile hfile)
      have hrest : Proceeds bs₂ (readEntries host b codelen n s' abbrevs' bs₂) fun s'' => (rs s'').Bounded :=
        readEntries_proceeds hb hfuel h₂.inv (hs.sameFile (hfile.trans h₂.file)) hc' ha' (by omega)
      exact hrest.after (h₁.trans h₂)
    split
    · exact Avoids.bind (hb.subblock hi₁ (hs.sameFile hfile) hc) fun _ hx => hgo hx.2 hx.1 ha
    split
    · refine Avoids.bind (pnAbbrevRead_proceeds hi₁) fun x hx => ?_
      obtain ⟨ab, bs₂⟩ := x
      refine Avoids.bind (hb.defineAbbrev hc hx.1) fun s' hs' => hgo hx.2 hs' ?_
      intro ab' hmem
      rcases List.mem_append.mp hmem with hmem | hmem
      · exact ha ab' hmem
      · rw [List.mem_singleton.mp hmem]
        exact hx.1
    · refine Avoids.bind (readCode_ready hi₁ ha hfuel) fun x hx => ?_
      obtain ⟨code, r⟩ := x
      obtain ⟨h₂, hready⟩ := hx
      refine Avoids.bind (hb.record hready) fun x hx => ?_
      obtain ⟨s', bs₃⟩ := x
      exact hgo (h₂.trans hx.2) (hx.1.bounded hc) ha

/-- A block with its header. -/
theorem readBlock_proceeds (hb : b.Halts rs fuel) (hfuel : 2 ^ 66 < fuel) {s : σ} (hi : Inv bs) (hs : bs.Short)
    (hc : (rs s).Bounded) (ha : AbbrevsBounded abbrevs) :
    Proceeds bs (readBlock host b fuel s abbrevs bs) fun s' => (rs s').Bounded := by
  refine (readVbr_proceeds hi 4).bind fun x _ h₁ => .check fun _ => ?_
  obtain ⟨codelen, bs₁⟩ := x
  refine Avoids.bind_ok (pnBitstreamAlign32_noFuel bs₁).avoids.2 fun bs₂ hr => ?_
  obtain ⟨hi₂, hfile₂, hle₂⟩ := tracks_align_ok h₁.inv hr
  have h₂ : bs₁.Follows bs₂ := ⟨hi₂, hfile₂, hle₂⟩
  refine Avoids.bind (read_proceeds hi₂ 32) fun x hx => ?_
  obtain ⟨_, bs₃⟩ := x
  have h₃ := h₁.trans (h₂.trans hx.2)
  have hlen : bs₃.dataLen + 4 ≤ 2 ^ 29 := hs.sameFile h₃.file
  have hbits : 8 * bs₃.dataLen < fuel + bs₃.bitOffset := by omega
  have hrest : Proceeds bs₃ (readEntries host b codelen fuel s abbrevs bs₃) fun s' => (rs s').Bounded :=
    readEntries_proceeds hb hfuel h₃.inv hlen hc ha hbits
  exact hrest.after (h₂.trans hx.2)

end Blocks

/-! ## The passes -/

section Passes

variable {host : PNHost} {module : PNModule} {functionId : Nat} {f : PNFunction} {inst : PNInstruction}

theorem calculateResultValueType_noFuel (inst : PNInstruction) :
    NoFuel (pnInstructionCalculateResultValueType host module f inst) := by
  have hget : ∀ id, NoFuel (pnFunctionGetValue module f id) := fun id he => getValue_avoids.2 _ he (.inl rfl)
  have hassign : ∀ r v₀ v₁, NoFuel (pnFunctionAssignResultValueType host module f r v₀ v₁) := by
    intro r v₀ v₁
    refine (hget r).bind fun _ _ => (hget v₀).bind fun _ _ => (hget v₁).bind fun _ _ => ?_
    split
    · exact .ok
    · exact .bind .check fun _ _ => .ok
  cases inst <;> first | exact hassign _ _ _ | exact .ok

theorem resolveTypes_noFuel : ∀ (insts : List PNInstruction) (f : PNFunction), NoFuel (resolveTypes host module f insts)
  | [], _ => .ok
  | inst :: insts, _ => (calculateResultValueType_noFuel inst).bind fun _ _ => (resolveTypes_noFuel insts _).bind fun _ _ => .ok

/-- One round; what is invalid behind it was invalid before. -/
theorem retryInvalid_avoids : ∀ (left n : Nat) (invalid : List PNInstruction) (f : PNFunction),
    Avoids (· = Stop.fuel) (retryInvalid host module left n invalid f) fun x => x.1.length ≤ invalid.length
  | 0, _, _, _ => .ok (Nat.le_refl _)
  | left + 1, n, invalid, f => by
    rw [retryInvalid]
    split
    · exact .ok (Nat.le_refl _)
    · rename_i inst _
      refine (calculateResultValueType_noFuel inst).avoids.bind fun x _ => ?_
      obtain ⟨resolved, g⟩ := x
      dsimp only
      split
      · refine (retryInvalid_avoids left n (removeAt invalid n) g).mono fun _ hle => hle.trans ?_
        rw [length_removeAt]
        exact Nat.sub_le _ _
      · exact retryInvalid_avoids left (n + 1) invalid g

/-- Every round but the last leaves less. -/
theorem retryRounds_noFuel : ∀ {n : Nat} {invalid : List PNInstruction} (f : PNFunction), invalid.length < n →
    NoFuel (retryRounds host module n invalid f)
  | 0, _, _, h => absurd h (Nat.not_lt_zero _)
  | n + 1, invalid, f, h => by
    rw [retryRounds]
    refine noFuel_of_avoids (Q := fun _ => True) ((retryInvalid_avoids invalid.length 0 invalid f).bind fun x hle => ?_)
    obtain ⟨left, g⟩ := x
    dsimp only at hle ⊢
    split
    · exact (retryRounds_noFuel g (by omega)).avoids.mono fun _ _ => trivial
    · split
      · exact .error (by simp)
      · exact .ok trivial

theorem countPhiAssigns_noFuel {numBbs : Nat} : ∀ (uses : List (Nat × PNPhiUse)) (counts : List Nat),
    NoFuel (countPhiAssigns numBbs uses counts)
  | [], _ => .ok
  | _ :: uses, _ => .bind .cAssert fun _ _ => countPhiAssigns_noFuel uses _

theorem fillPhiAssigns_noFuel {counts : List Nat} : ∀ (uses : List (Nat × PNPhiUse)) (bbs : List PNBasicBlock),
    NoFuel (fillPhiAssigns counts uses bbs)
  | [], _ => .ok
  | (_, use) :: uses, bbs => by
    rw [fillPhiAssigns]
    split
    · exact .error (by simp)
    · split
      · exact fillPhiAssigns_noFuel uses _
      · exact .error (by simp)

theorem writeInstructions_noFuel {offsets : List Nat} {write : Bool} : ∀ (insts : List PNInstruction) (offset : Nat),
    NoFuel (writeInstructions host module f offsets write insts offset)
  | [], _ => .ok
  | inst :: insts, offset => by
    rw [writeInstructions]
    refine .bind ?_ fun _ _ => (writeInstructions_noFuel insts _).bind fun _ _ => .ok
    rw [storedInstruction]
    split
    · exact fun he => (lowerInstruction_avoids inst).2 _ he (.inl rfl)
    · exact .ok

theorem writeBlock_noFuel {offsets : List Nat} {write : Bool} (bb : PNBasicBlock) (offset : Nat) :
    NoFuel (pnBasicBlockWriteInstructionStream host module f bb offsets offset write) := by
  refine (writeInstructions_noFuel bb.instructions offset).bind fun _ _ => ?_
  dsimp only
  split <;> exact .ok

theorem measureBlocks_noFuel : ∀ (bbs : List PNBasicBlock) (offset : Nat), NoFuel (measureBlocks host module f bbs offset)
  | [], _ => .ok
  | bb :: bbs, offset => by
    rw [measureBlocks]
    refine .bind (.bind .cAssert fun _ _ => .ok) fun _ _ => (writeBlock_noFuel bb _).bind fun x _ => ?_
    obtain ⟨next, _⟩ := x
    dsimp only
    split
    · exact .error (by simp)
    · exact (measureBlocks_noFuel bbs next).bind fun _ _ => .ok

theorem writeBlocks_noFuel {bbOffsets : List Nat} : ∀ (bbs : List PNBasicBlock) (offsets : List Nat) (offset : Nat),
    NoFuel (writeBlocks host module f bbOffsets bbs offsets offset)
  | [], _, _ => .ok
  | _ :: _, [], _ => .ok
  | bb :: bbs, _ :: offsets, _ => .bind (.bind .cAssert fun _ _ => .ok) fun _ _ => .bind .check fun _ _ =>
      (writeBlock_noFuel bb _).bind fun _ _ => (writeBlocks_noFuel bbs offsets _).bind fun _ _ => .ok

/-- **The passes at the end of a function end.** -/
theorem pnFunctionPasses_noFuel : NoFuel (pnFunctionPasses host module functionId f) := by
  refine .bind ?_ fun g _ => .bind ?_ fun g' _ => ?_
  · refine (resolveTypes_noFuel f.insts f).bind fun x _ => ?_
    obtain ⟨invalid, g⟩ := x
    dsimp only
    split
    · exact retryRounds_noFuel g (Nat.lt_succ_self _)
    · exact .ok
  · exact (countPhiAssigns_noFuel _ _).bind fun _ _ => (fillPhiAssigns_noFuel _ _).bind fun _ _ => .ok
  · refine (measureBlocks_noFuel _ _).bind fun x _ => ?_
    obtain ⟨offsets, last⟩ := x
    dsimp only
    split
    · exact .error (by simp)
    · exact (writeBlocks_noFuel _ _ _).bind fun _ _ => .ok

end Passes

/-! ## The block readers -/

section Readers

variable {host : PNHost} {dedupe : Bool} {fuel : Nat} {rs : PNReadState} {bs : PNBitStream}

theorem alignEnd_proceeds {σ : Type} (s : σ) (hi : Inv bs) : Proceeds bs (alignEnd s bs) fun s' => s' = s := by
  refine Avoids.bind_ok (pnBitstreamAlign32_noFuel bs).avoids.2 fun bs' hr => ?_
  obtain ⟨hi', hfile, hle⟩ := tracks_align_ok hi hr
  exact .ok ⟨rfl, hi', hfile, hle⟩

/-- A block reader without subblocks that takes any abbreviation. -/
theorem halts_of_handles {σ : Type} {b : PNBlockReader σ} {rs : σ → PNReadState} (h : b.Handles rs fuel)
    (hend : ∀ {s} {bs : PNBitStream}, bs.Inv → (rs s).Bounded → Proceeds bs (b.endBlock s bs) fun s' => (rs s').Bounded)
    (text : String) (hsub : ∀ s bs, b.subblock s bs = pnFatal text []) (hdef : ∀ s ab, b.defineAbbrev s ab = .ok s) :
    b.Halts rs fuel where
  endBlock := hend
  subblock {s bs} _ _ _ := by
    rw [hsub]
    exact .error (by simp)
  defineAbbrev {s ab} hb _ := by
    rw [hdef]
    exact .ok hb
  record {s code r} hr := (h hr).mono fun _ hx => ⟨hx.2, hx.1⟩

theorem pnTypeBlock_halts : (pnTypeBlock fuel).Halts PNTypeState.rs fuel :=
  halts_of_handles pnTypeBlock_handles (fun hi hb => .check fun _ => (alignEnd_proceeds _ hi).mono fun _ hs => hs ▸ hb)
    "unexpected subblock in type_block\n" (fun _ _ => rfl) fun _ _ => rfl

theorem pnValueSymtabBlock_halts : (pnValueSymtabBlock fuel).Halts id fuel :=
  halts_of_handles pnValueSymtabBlock_handles (fun hi hb => (alignEnd_proceeds _ hi).mono fun _ hs => hs ▸ hb)
    "unexpected subblock in valuesymtab_block\n" (fun _ _ => rfl) fun _ _ => rfl

theorem pnConstantsBlock_halts : (pnConstantsBlock host fuel).Halts PNConstantsState.rs fuel :=
  halts_of_handles (pnConstantsBlock_handles host) (fun hi hb => (alignEnd_proceeds _ hi).mono fun _ hs => hs ▸ hb)
    "unexpected subblock in constants_block\n" (fun _ _ => rfl) fun _ _ => rfl

theorem writeRelocs_noFuel : ∀ (relocs : List PNRelocInfo) (module : PNModule), NoFuel (writeRelocs module relocs)
  | [], _ => .ok
  | _ :: rest, _ => .bind .check fun _ _ => (pnGlobalvarWriteReloc_noFuel _ _ _ _).bind fun _ _ => writeRelocs_noFuel rest _

theorem pnGlobalvarBlock_halts : (pnGlobalvarBlock fuel).Halts PNGlobalvarState.rs fuel := by
  refine halts_of_handles pnGlobalvarBlock_handles (fun {s bs} hi hb => ?_) "unexpected subblock in globalvar_block\n"
    (fun _ _ => rfl) fun _ _ => rfl
  refine Avoids.bind_ok (pnBitstreamAlign32_noFuel bs).avoids.2 fun bs' hr => ?_
  refine Avoids.bind_ok (writeRelocs_noFuel _ _).avoids.2 fun module _ => ?_
  obtain ⟨hi', hfile, hle⟩ := tracks_align_ok hi hr
  exact .ok ⟨hb, hi', hfile, hle⟩

/-- The block info appends to the abbreviations of a kind of block. -/
theorem pnBlockinfoBlock_halts : (pnBlockinfoBlock fuel).Halts PNBlockinfoState.rs fuel where
  endBlock hi hb := (alignEnd_proceeds _ hi).mono fun _ hs => hs ▸ hb
  subblock _ _ _ := .error (by simp)
  defineAbbrev {s ab} hb hab := by
    refine Avoids.bind_ok (NoFuel.avoids (.bind .check fun _ _ => .ok)).2 fun context h => .ok fun id ab' hmem => ?_
    obtain ⟨-, h⟩ := pnCheck_bind_eq_ok.mp h
    cases h
    dsimp only at hmem
    split at hmem
    · rcases List.mem_append.mp hmem with hmem | hmem
      · exact hb _ ab' hmem
      · rw [List.mem_singleton.mp hmem]
        exact hab
    · exact hb _ ab' hmem
  record hr := (pnBlockinfoBlock_handles hr).mono fun _ hx => ⟨hx.2, hx.1⟩

/-- A block whose reader is part of another one. -/
theorem readBlock_part {σ α : Type} {b : PNBlockReader σ} {toRs : σ → PNReadState} (hb : b.Halts toRs fuel) (hfuel : 2 ^ 66 < fuel)
    {s : σ} {abbrevs : List PNAbbrev} (hi : Inv bs) (hs : bs.Short) (hc : (toRs s).Bounded) (ha : AbbrevsBounded abbrevs)
    {out : σ → α} {Q : α → Prop} (hout : ∀ s', (toRs s').Bounded → Q (out s')) :
    Proceeds bs (do let (s', bs') ← readBlock host b fuel s abbrevs bs; .ok (out s', bs')) Q :=
  (readBlock_proceeds hb hfuel hi hs hc ha).bind fun x hs' hf => Proceeds.ok (hout x.1 hs') (.refl hf.inv)

theorem pnConstantsBlockRead_proceeds (hfuel : 2 ^ 66 < fuel) (functionId : Nat) (f : PNFunction) (hi : Inv bs) (hs : bs.Short)
    (hc : rs.Bounded) : Avoids (· = Stop.fuel) (pnConstantsBlockRead host fuel rs functionId f bs) fun x =>
      x.1.Bounded ∧ bs.Follows x.2.2 :=
  Avoids.bind (readBlock_proceeds pnConstantsBlock_halts hfuel hi hs hc (hc 11)) fun _ hx => .ok hx

theorem pnFunctionBlock_halts (hfuel : 2 ^ 66 < fuel) : (pnFunctionBlock host dedupe fuel).Halts PNFunctionState.rs fuel where
  endBlock {s bs} hi hb := by
    refine .check fun _ => ?_
    refine Avoids.bind_ok pnFunctionPasses_noFuel.avoids.2 fun f _ => ?_
    have hend : Proceeds bs (alignEnd { s with function := f } bs) fun s' => s'.rs.Bounded :=
      (alignEnd_proceeds _ hi).mono fun _ hs => hs ▸ hb
    exact hend
  subblock {s bs} hi hs hb := by
    refine (readVbr_proceeds hi 8).bind fun x _ h₁ => ?_
    obtain ⟨id, bs₁⟩ := x
    have hs₁ := hs.sameFile h₁.file
    dsimp only at h₁ hs₁ ⊢
    split
    · exact Avoids.bind (pnConstantsBlockRead_proceeds hfuel _ _ h₁.inv hs₁ hb) fun _ hx => .ok hx
    · have hsymtab : Proceeds bs₁ (pnValueSymtabBlockRead host fuel s.store bs₁) PNReadState.Bounded :=
        readBlock_proceeds pnValueSymtabBlock_halts hfuel h₁.inv hs₁ hb (hb 14)
      exact Avoids.bind hsymtab fun _ hx => .ok hx
    · exact .error (by simp)
  defineAbbrev hb _ := .ok hb
  record {s code r} hr := by
    by_cases hcode : code = PN_FUNCTION_CODE_DECLAREBLOCKS
    · subst hcode
      exact (guides_uint32 hr _).bind fun _ h => .ok ⟨rfl, h.holds.2⟩
    · exact (avoids_functionRecord host dedupe hcode hr).mono fun _ hx => ⟨hx.2, hx.1⟩

theorem pnFunctionBlockRead_proceeds (hfuel : 2 ^ 66 < fuel) (functionId : Nat) (hi : Inv bs) (hs : bs.Short) (hc : rs.Bounded) :
    Proceeds bs (pnFunctionBlockRead host dedupe fuel rs functionId bs) PNReadState.Bounded := by
  unfold pnFunctionBlockRead
  split
  · exact .error (by simp)
  · split
    · refine Avoids.bind_ok (NoFuel.avoids .cAssert).2 fun _ _ => ?_
      exact readBlock_part (pnFunctionBlock_halts hfuel) hfuel hi hs hc (hc 12) fun _ h => h
    · exact .error (by simp)

theorem pnModuleBlock_halts (hfuel : 2 ^ 66 < fuel) : (pnModuleBlock host dedupe fuel).Halts (fun s => s.rs) fuel where
  endBlock hi hb := (alignEnd_proceeds _ hi).mono fun _ hs => hs ▸ hb
  subblock {s bs} hi hs hb := by
    refine (readVbr_proceeds hi 8).bind fun x _ h₁ => ?_
    obtain ⟨id, bs₁⟩ := x
    have hs₁ := hs.sameFile h₁.file
    have hpart : ∀ {rs' : PNReadState} {bs₂ : PNBitStream} {functionId : Nat}, rs'.Bounded → bs₁.Follows bs₂ →
        Proceeds bs₁ (.ok (PNModuleState.mk rs' functionId, bs₂)) fun s' => s'.rs.Bounded :=
      fun h hf => Proceeds.ok h hf
    dsimp only at h₁ hs₁ ⊢
    split
    · exact Avoids.bind (readBlock_part pnBlockinfoBlock_halts hfuel h₁.inv hs₁ hb (fun _ h => (List.not_mem_nil h).elim)
        fun _ h => h) fun _ hx => hpart hx.1 hx.2
    · exact Avoids.bind (readBlock_part pnTypeBlock_halts hfuel h₁.inv hs₁ hb (hb 17) fun _ h => h) fun _ hx => hpart hx.1 hx.2
    · exact Avoids.bind (readBlock_part pnGlobalvarBlock_halts hfuel h₁.inv hs₁ hb (hb 19) fun _ h => h) fun _ hx => hpart hx.1 hx.2
    · exact Avoids.bind (readBlock_proceeds pnValueSymtabBlock_halts hfuel h₁.inv hs₁ hb (hb 14)) fun _ hx => hpart hx.1 hx.2
    · refine Avoids.bind_ok (NoFuel.avoids .check).2 fun _ _ => ?_
      exact Avoids.bind (pnFunctionBlockRead_proceeds hfuel _ h₁.inv hs₁ hb) fun _ hx => hpart hx.1 hx.2
    · exact .error (by simp)
  defineAbbrev hb _ := .ok hb
  record hr := (pnModuleBlock_handles host dedupe hr).mono fun _ hx => ⟨hx.2, hx.1⟩

end Readers

/-! ## The header and the module -/

section Module

variable {host : PNHost} {dedupe : Bool} {fuel : Nat} {bs : PNBitStream}

/-- What is behind a computation that changes only the stream. -/
abbrev Header (bs : PNBitStream) (m : Except Stop PNBitStream) : Prop :=
  Avoids (· = Stop.fuel) m fun bs' => Inv bs' ∧ SameFile bs bs'

theorem readSignature_header : ∀ {cs : List Char} {bs : PNBitStream}, Inv bs → Header bs (readSignature cs bs)
  | [], bs, hi => .ok ⟨hi, .refl bs⟩
  | c :: cs, bs, hi => by
    refine Avoids.bind (read_proceeds hi 8) fun x hx => ?_
    obtain ⟨v, bs₁⟩ := x
    dsimp only
    split
    · exact .error (by simp)
    · exact (readSignature_header hx.2.inv).mono fun _ h => ⟨h.1, hx.2.file.trans h.2⟩

theorem seekBit_header (hi : Inv bs) {off : Nat} (h32 : off < 2 ^ 32) : Header bs (pnBitstreamSeekBit bs off) := by
  by_cases hle : off ≤ 8 * bs.dataLen
  · obtain ⟨bs', hseek, hi', hfile, -⟩ := pnBitstreamSeekBit_spec hi.dataLen_lt hi.word_lt hle
    rw [hseek]
    exact .ok ⟨hi', hfile⟩
  · obtain ⟨e, hseek, he⟩ := pnBitstreamSeekBit_past hi.dataLen_lt hi.word_lt h32 (by omega)
    rw [hseek]
    refine .error fun hf => ?_
    rw [hf] at he
    exact he

theorem readHeaderFields_header : ∀ {n : Nat} {bs : PNBitStream}, Inv bs → Header bs (readHeaderFields n bs)
  | 0, bs, hi => .ok ⟨hi, .refl bs⟩
  | n + 1, bs, hi => by
    refine Avoids.bind (read_proceeds hi 4) fun x h₁ => ?_
    obtain ⟨ftype, bs₁⟩ := x
    refine Avoids.bind (read_proceeds h₁.2.inv 4) fun x h₂ => ?_
    obtain ⟨id, bs₂⟩ := x
    dsimp only
    split
    · exact .error (by simp)
    refine Avoids.bind (read_proceeds h₂.2.inv 8) fun x h₃ => ?_
    obtain ⟨_, bs₃⟩ := x
    refine Avoids.bind (read_proceeds h₃.2.inv 16) fun x h₄ => ?_
    obtain ⟨length, bs₄⟩ := x
    have hfile := h₁.2.file.trans (h₂.2.file.trans (h₃.2.file.trans h₄.2.file))
    dsimp only
    split
    · refine Avoids.bind (seekBit_header h₄.2.inv (Nat.mod_lt _ (by decide))) fun bs₅ h₅ => ?_
      exact (readHeaderFields_header h₅.1).mono fun _ h => ⟨h.1, hfile.trans (h₅.2.trans h.2)⟩
    · refine Avoids.bind (read_proceeds h₄.2.inv 32) fun x h₅ => ?_
      obtain ⟨_, bs₅⟩ := x
      exact (readHeaderFields_header h₅.2.inv).mono fun _ h => ⟨h.1, hfile.trans (h₅.2.file.trans h.2)⟩
    · exact .error (by simp)

theorem pnHeaderRead_header (hi : Inv bs) : Header bs (pnHeaderRead bs) := by
  refine Avoids.bind (readSignature_header hi) fun bs₁ h₁ => ?_
  refine Avoids.bind (read_proceeds h₁.1 16) fun x h₂ => ?_
  obtain ⟨n, bs₂⟩ := x
  refine Avoids.bind (read_proceeds h₂.2.inv 16) fun x h₃ => ?_
  obtain ⟨_, bs₃⟩ := x
  exact (readHeaderFields_header h₃.2.inv).mono fun _ h => ⟨h.1, h₁.2.trans (h₂.2.file.trans (h₃.2.file.trans h.2))⟩

/-- **Loading comes to an end** where no aligned offset can wrap. -/
theorem pnModuleRead_noFuel (hfuel : 2 ^ 66 < fuel) (module : PNModule) (hi : Inv bs) (hs : bs.Short) :
    NoFuel (pnModuleRead host dedupe fuel module bs) := by
  apply noFuel_of_avoids (Q := fun _ => True)
  refine Avoids.bind (pnHeaderRead_header hi) fun bs₁ h₁ => ?_
  refine Avoids.bind (read_proceeds h₁.1 2) fun x h₂ => ?_
  obtain ⟨entry, bs₂⟩ := x
  dsimp only
  split
  · exact .error (by simp)
  refine Avoids.bind (readVbr_proceeds h₂.2.inv 8) fun x h₃ => ?_
  obtain ⟨blockId, bs₃⟩ := x
  refine Avoids.bind_ok (NoFuel.avoids .check).2 fun _ _ => ?_
  have hs₃ := hs.sameFile (h₁.2.trans (h₂.2.file.trans h₃.2.file))
  refine Avoids.bind (readBlock_proceeds (pnModuleBlock_halts hfuel) hfuel h₃.2.inv hs₃ ?_ ?_) fun _ _ => .ok trivial
  · exact fun _ _ h => (List.not_mem_nil h).elim
  · exact fun _ h => (List.not_mem_nil h).elim

end Module

/-! ## Files that are read to an end -/

/-- The reader returns or stops on this stream, however much fuel it has beyond some limit. -/
def Terminates (host : PNHost) (dedupe : Bool) (module : PNModule) (bs : PNBitStream) : Prop :=
  ∃ limit, ∀ fuel, limit < fuel → pnModuleRead host dedupe fuel module bs ≠ .error .fuel

/-- **All files of a length are read to an end** if and only if the length is at most 2 ^ 29 - 4 bytes. -/
theorem terminates_iff (host : PNHost) (dedupe : Bool) (module : PNModule) {n : Nat} (hn : n < 2 ^ 29) :
    (∀ data, Terminates host dedupe module (pnBitstreamInit data n)) ↔ n + 4 ≤ 2 ^ 29 := by
  constructor
  · intro h
    by_contra hlong
    obtain ⟨limit, hlimit⟩ := h endlessFile
    exact hlimit (limit + 1) (Nat.lt_succ_self _) (endless_read (by omega) hn module)
  · intro hshort data
    exact ⟨2 ^ 66, fun fuel hfuel => pnModuleRead_noFuel hfuel module (pnBitstreamInit_inv data hn) hshort⟩

/-- The same file without its last byte. -/
theorem terminates_iff_longest : Terminates zeroHost true (pnModuleInit ⟨fun _ => 0, 2 ^ 16⟩)
    (pnBitstreamInit endlessFile (2 ^ 29 - 4)) :=
  (terminates_iff zeroHost true (pnModuleInit ⟨fun _ => 0, 2 ^ 16⟩) (by decide)).mpr (by decide) endlessFile

/-- With its last byte it is read for ever; its abbreviation has no operand width. -/
theorem endless_file : ¬Terminates zeroHost true (pnModuleInit ⟨fun _ => 0, 2 ^ 16⟩) (pnBitstreamInit endlessFile (2 ^ 29 - 3)) := by
  rintro ⟨limit, hlimit⟩
  exact hlimit (limit + 1) (Nat.lt_succ_self _) (endless_read (by decide) (by decide) _)

end Pnacl
