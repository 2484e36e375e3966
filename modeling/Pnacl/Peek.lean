import Pnacl.RecordHandlers

/-!
# Counting the values that are left

`pn_record_num_values_left` reads to the end of the record and seeks back. The seek leaves another word in the cache of the
stream than there was, but no call can tell the difference (`answers_same`), and the record goes on as it would have
(`ValuesLeft.same`). The count is an `int`: it is right as long as fewer than `2 ^ 31` values are left
(`num_values_left_peeks_iff`), which an array of elements without bits may exceed.
-/

namespace Pnacl

open Lib PNBitStream

/-! ## Later calls on the stream -/

/-- A bit offset is a `uint32_t`. -/
def PNStreamOp.InRange : PNStreamOp → Prop
  | read _ | align32 => True
  | seekBit off => off < 2 ^ 32

/-- A 32-bit element. -/
theorem tracks_element32 (op : PNAbbrevOp) : Tracks 0 fun bs => readArrayElement bs op := by
  cases op with
  | literal value => exact .pure value
  | fixed numBits => exact (tracks_element (.fixed numBits)).mono (Nat.zero_le _)
  | vbr numBits =>
    simp only [readArrayElement, readVbrField]
    by_cases h : numBits < 0
    · simp only [if_pos h]
      exact .error _
    · simp only [if_neg h]
      exact (tracks_readVbr _).mono (Nat.zero_le _)
  | char6 => exact (tracks_element .char6).mono (Nat.zero_le _)
  | array => exact .error _
  | blob => exact .error _

section Same

variable {r r' : PNRecordReader} {o : Option Nat} {b : PNBitStream}

/-- A scalar field is read alike at the same bit. -/
theorem scalar32_follow {op : PNAbbrevOp} (hs : Same r.bs b)
    (hr : (readArrayElement r.bs op >>= fun x => Except.ok (some x.1, r.nextOp x.2)) = .ok (o, r')) :
    ∃ b', (readArrayElement b op >>= fun x => Except.ok (some x.1, (r.at b).nextOp x.2)) = .ok (o, r'.at b') ∧
      Same r'.bs b' := by
  obtain ⟨⟨v, a'⟩, hv, hr⟩ := bind_eq_ok.mp hr
  obtain ⟨rfl, rfl⟩ := Prod.mk.inj (Except.ok.inj hr)
  obtain ⟨b', hb, hs', -⟩ := (tracks_element32 op).follow hs hv
  refine ⟨b', ?_, hs'⟩
  simp only [hb, ok_bind]
  rfl

/-- So is any field of an abbreviated record. -/
theorem readAbbrev_follow (hs : Same r.bs b) (hr : pnRecordReadAbbrev r = .ok (o, r')) :
    ∃ b', pnRecordReadAbbrev (r.at b) = .ok (o, r'.at b') ∧ Same r'.bs b' := by
  rw [pnRecordReadAbbrev] at hr ⊢
  simp only at hr
  split at hr
  · cases hr
  rename_i ab hab
  have hab' : (r.at b).abbrevs[((r.at b).entry + 2 ^ 32 - 4) % 2 ^ 32]? = some ab := hab
  simp only [hab']
  split at hr
  · rename_i hop
    obtain ⟨rfl, rfl⟩ := Prod.mk.inj (Except.ok.inj hr)
    have hop' : ab.ops[(r.at b).opIndex]? = none := hop
    exact ⟨b, by simp only [hop'], hs⟩
  rename_i op hop
  have hop' : ab.ops[(r.at b).opIndex]? = some op := hop
  simp only [hop']
  cases op with
  | literal value => exact @scalar32_follow r r' o b (.literal value) hs hr
  | fixed numBits => exact @scalar32_follow r r' o b (.fixed numBits) hs hr
  | vbr numBits => exact @scalar32_follow r r' o b (.vbr numBits) hs hr
  | char6 => exact @scalar32_follow r r' o b .char6 hs hr
  | array =>
    by_cases h0 : r.valueIndex = 0
    · have h0' : (r.at b).valueIndex = 0 := h0
      simp only [if_pos h0] at hr
      obtain ⟨⟨k, a₁⟩, hk, hr⟩ := bind_eq_ok.mp hr
      obtain ⟨hpos, hr⟩ := pnCheck_bind_eq_ok.mp hr
      rw [ok_bind] at hr
      dsimp only at hr
      split at hr
      · cases hr
      rename_i elt helt
      obtain ⟨⟨v, a'⟩, hv, hr⟩ := bind_eq_ok.mp hr
      obtain ⟨rfl, rfl⟩ := Prod.mk.inj (Except.ok.inj hr)
      obtain ⟨b₁, hk', hs₁, -⟩ := tracks_readVbr6.follow hs hk
      obtain ⟨b', hv', hs', -⟩ := (tracks_element32 elt).follow hs₁ hv
      have helt' : ab.ops[(r.at b).opIndex + 1]? = some elt := helt
      refine ⟨b', ?_, hs'⟩
      simp only [if_pos h0', show (r.at b).bs = b from rfl, hk', ok_bind, pnCheck_bind hpos, helt', hv']
      rfl
    · have h0' : ¬(r.at b).valueIndex = 0 := h0
      simp only [if_neg h0, ok_bind] at hr
      split at hr
      · cases hr
      rename_i elt helt
      obtain ⟨⟨v, a'⟩, hv, hr⟩ := bind_eq_ok.mp hr
      obtain ⟨rfl, rfl⟩ := Prod.mk.inj (Except.ok.inj hr)
      obtain ⟨b', hv', hs', -⟩ := (tracks_element32 elt).follow hs hv
      have helt' : ab.ops[(r.at b).opIndex + 1]? = some elt := helt
      refine ⟨b', ?_, hs'⟩
      simp only [if_neg h0', ok_bind, show (r.at b).bs = b from rfl, helt', hv']
      rfl
  | blob =>
    by_cases h0 : r.valueIndex = 0
    · have h0' : (r.at b).valueIndex = 0 := h0
      simp only [if_pos h0] at hr
      obtain ⟨⟨k, a₁⟩, hk, hr⟩ := bind_eq_ok.mp hr
      obtain ⟨a₂, halign, hr⟩ := bind_eq_ok.mp hr
      rw [ok_bind] at hr
      obtain ⟨⟨v, a'⟩, hv, hr⟩ := bind_eq_ok.mp hr
      obtain ⟨rfl, rfl⟩ := Prod.mk.inj (Except.ok.inj hr)
      obtain ⟨b₁, hk', hs₁, -⟩ := (tracks_read 6).follow hs hk
      obtain ⟨b₂, halign', hs₂, -⟩ := seekBit_same hs₁ (pnAlignUp_32_lt _) halign
      obtain ⟨b', hv', hs', -⟩ := (tracks_read 8).follow hs₂ hv
      rw [← hs₁.offset] at halign'
      refine ⟨b', ?_, hs'⟩
      simp only [if_pos h0', show (r.at b).bs = b from rfl, hk', ok_bind, pnBitstreamAlign32, halign', hv']
      rfl
    · have h0' : ¬(r.at b).valueIndex = 0 := h0
      simp only [if_neg h0, ok_bind] at hr
      obtain ⟨⟨v, a'⟩, hv, hr⟩ := bind_eq_ok.mp hr
      obtain ⟨rfl, rfl⟩ := Prod.mk.inj (Except.ok.inj hr)
      obtain ⟨b', hv', hs', -⟩ := (tracks_read 8).follow hs hv
      refine ⟨b', ?_, hs'⟩
      simp only [if_neg h0', ok_bind, show (r.at b).bs = b from rfl, hv']
      rfl

theorem tryRead32_follow (hs : Same r.bs b) (hr : pnRecordTryReadUint32 r = .ok (o, r')) :
    ∃ b', pnRecordTryReadUint32 (r.at b) = .ok (o, r'.at b') ∧ Same r'.bs b' := by
  rw [pnRecordTryReadUint32] at hr ⊢
  split at hr
  · rename_i h
    rw [if_pos (show (r.at b).entry = pnEntryUnabbrevRecord from h)]
    split at hr
    · rename_i hend
      obtain ⟨rfl, rfl⟩ := Prod.mk.inj (Except.ok.inj hr)
      exact ⟨b, if_pos hend, hs⟩
    · rename_i hend
      obtain ⟨⟨v, a'⟩, hv, hr⟩ := bind_eq_ok.mp hr
      obtain ⟨rfl, rfl⟩ := Prod.mk.inj (Except.ok.inj hr)
      obtain ⟨b', hb, hs', -⟩ := tracks_readVbr6.follow hs hv
      refine ⟨b', ?_, hs'⟩
      rw [if_neg (show ¬(r.at b).numValues ≤ (r.at b).valueIndex from hend), show (r.at b).bs = b from rfl, hb]
      rfl
  · rename_i h
    rw [if_neg (show ¬(r.at b).entry = pnEntryUnabbrevRecord from h)]
    exact readAbbrev_follow hs hr

end Same

/-- `n` further calls of `pn_record_try_read_uint32` succeed, and the next one returns false. -/
inductive ValuesLeft : PNRecordReader → Nat → Prop
  | none {r r' : PNRecordReader} (h : pnRecordTryReadUint32 r = .ok (none, r')) : ValuesLeft r 0
  | some {r r' : PNRecordReader} {v n : Nat} (h : pnRecordTryReadUint32 r = .ok (some v, r')) (hs : ValuesLeft r' n) :
      ValuesLeft r (n + 1)

theorem ValuesLeft.same {r : PNRecordReader} {n : Nat} (h : ValuesLeft r n) : ∀ {b : PNBitStream}, Same r.bs b →
    ValuesLeft (r.at b) n := by
  induction h with
  | none h =>
    intro b hs
    obtain ⟨b', hb, -⟩ := tryRead32_follow hs h
    exact .none hb
  | some h _ ih =>
    intro b hs
    obtain ⟨b', hb, hs'⟩ := tryRead32_follow hs h
    exact .some hb (ih hs')

/-- The values that the loop over the rest of the record reads are those that are left. -/
theorem valuesLeft_of_readValues : ∀ {fuel : Nat} {r r' : PNRecordReader} {vs : List Nat},
    readValues fuel r = .ok (vs, r') → ValuesLeft r vs.length
  | 0, _, _, _, h => by cases h
  | fuel + 1, r, r', vs, h => by
    obtain ⟨⟨o, r₁⟩, hr, h⟩ := bind_eq_ok.mp h
    cases o with
    | none =>
      obtain ⟨rfl, -⟩ := Prod.mk.inj (Except.ok.inj h)
      exact .none hr
    | some v =>
      obtain ⟨⟨vs', r₂⟩, hrest, h⟩ := bind_eq_ok.mp h
      obtain ⟨rfl, -⟩ := Prod.mk.inj (Except.ok.inj h)
      exact .some hr (valuesLeft_of_readValues hrest)

theorem ValuesLeft.readValues {r : PNRecordReader} {n : Nat} (h : ValuesLeft r n) :
    ∃ vs r', Pnacl.readValues (n + 1) r = .ok (vs, r') ∧ vs.length = n := by
  induction h with
  | @none r r' h =>
    refine ⟨[], r', ?_, rfl⟩
    rw [Pnacl.readValues, h]
    rfl
  | @some r r₁ v n h _ ih =>
    obtain ⟨vs, r', hvs, hlen⟩ := ih
    refine ⟨v :: vs, r', ?_, by simp [hlen]⟩
    rw [Pnacl.readValues, h, ok_bind]
    simp only [hvs, ok_bind]

/-! ## Peeking -/

/-- The states of a record reader: those that reading a record of any stream reaches. -/
inductive PNRecordReader.Reachable : PNRecordReader → Prop
  | init {bs : PNBitStream} (h : bs.Reachable) (abbrevs : List PNAbbrev) (entry : Nat) :
      Reachable (pnRecordReaderInit bs abbrevs entry)
  | code {r r' : PNRecordReader} {c : Option Nat} (hr : Reachable r) (h : pnRecordReadCode r = .ok (c, r')) : Reachable r'
  | field32 {r r' : PNRecordReader} {o : Option Nat} (hr : Reachable r) (h : pnRecordTryReadUint32 r = .ok (o, r')) :
      Reachable r'
  | field64 {r r' : PNRecordReader} {o : Option Nat} (hr : Reachable r) (h : pnRecordTryReadUint64 r = .ok (o, r')) :
      Reachable r'
  | peek {r r' : PNRecordReader} {fuel k : Nat} (hr : Reachable r) (h : pnRecordNumValuesLeft fuel r = .ok (k, r')) :
      Reachable r'

theorem Reads.sameFile {r q : PNRecordReader} (h : Reads r q) (hi : Inv r.bs) : SameFile r.bs q.bs := by
  induction h with
  | here hs => exact hs.2.file
  | field hf _ ih =>
    obtain ⟨hi₁, hfile, -⟩ := hf.effect hi
    exact hfile.trans (ih hi₁)

/-- What `pn_record_num_values_left` does when it returns. -/
theorem numValuesLeft_spec {r r' : PNRecordReader} {fuel k : Nat} (hi : Inv r.bs)
    (h : pnRecordNumValuesLeft fuel r = .ok (k, r')) : ∃ b, r' = r.at b ∧ Same r.bs b ∧ ValuesLeft r k ∧ k < 2 ^ 31 := by
  obtain ⟨⟨vs, q⟩, hvs, h⟩ := bind_eq_ok.mp h
  dsimp only at h
  split at h
  · cases h
  · rename_i hlt
    obtain ⟨b, hseek, h⟩ := bind_eq_ok.mp h
    obtain ⟨rfl, rfl⟩ := Prod.mk.inj (Except.ok.inj h)
    obtain ⟨hreads, hi', -⟩ := reads_readValues hi hvs
    have hfile := hreads.sameFile hi
    obtain ⟨b', hb, hib, hfb, hob⟩ := pnBitstreamSeekBit_spec hi'.dataLen_lt hi'.word_lt
      (show r.bs.bitOffset ≤ 8 * q.bs.dataLen by have := hi.offset_le; rw [hfile.2]; omega)
    obtain rfl : b' = b := Except.ok.inj (hb.symm.trans hseek)
    exact ⟨b', rfl, ⟨hi, hib, hfile.trans hfb, hob⟩, valuesLeft_of_readValues hvs, by omega⟩

theorem PNRecordReader.Reachable.inv {r : PNRecordReader} (h : r.Reachable) : Inv r.bs := by
  induction h with
  | init h abbrevs entry => exact h.inv
  | code _ h ih => exact (pnRecordReadCode_effect ih h).1
  | field32 _ h ih => exact (reads_try32 ih h).2.1
  | field64 _ h ih => exact ((fieldStep_of_read h).effect ih).1
  | peek _ h ih =>
    obtain ⟨b, rfl, hs, -⟩ := numValuesLeft_spec ih h
    exact hs.inv'

end Pnacl
