import Pnacl.BlockFrames

/-!
# The type table

`pn_type_block_read` checks the ids in function types against the announced number of types, and at the end of the block
that this number of types has come. It does not check that the number is announced only once. `pnTypeBlockRead_spec` says
what a table is like that was announced once in the file.
-/

namespace Pnacl

open Lib

/-- The type ids in a type. -/
def PNType.typeIds : PNType → List Nat
  | .function _ returnType argTypes => returnType :: argTypes
  | _ => []

/-- Two records that announce the same count: of the types, or of the blocks of one function. -/
def PNReadEvent.Repeats : PNReadEvent → PNReadEvent → Prop
  | .typeNumEntries _, .typeNumEntries _ => True
  | .functionNumblocks functionId _, .functionNumblocks functionId' _ => functionId = functionId'
  | _, _ => False

instance (a b : PNReadEvent) : Decidable (a.Repeats b) := by
  unfold PNReadEvent.Repeats
  split <;> infer_instance

/-- Every count is announced at most once. -/
def CountedOnce (trace : List PNReadEvent) : Prop := trace.Pairwise fun a b => ¬a.Repeats b

instance (trace : List PNReadEvent) : Decidable (CountedOnce trace) := inferInstanceAs (Decidable (List.Pairwise _ _))

theorem CountedOnce.of_append {trace events : List PNReadEvent} (h : CountedOnce (trace ++ events)) : CountedOnce trace :=
  (List.pairwise_append.mp h).1

/-- The number of types has been announced. -/
def TypesAnnounced (trace : List PNReadEvent) : Prop := ∃ n, .typeNumEntries n ∈ trace

/-- A table whose entries are all filled in, with ids that are in the table. -/
structure TypesOk (types : List PNType) : Prop where
  small : types.length < 2 ^ 16
  filled : ∀ type ∈ types, type ≠ .unset
  ids : ∀ type ∈ types, ∀ typeId ∈ type.typeIds, typeId < types.length

theorem TypesOk.nil : TypesOk [] := ⟨by simp, by simp, by simp⟩

section Fields

variable {reader reader' : PNRecordReader} {name : String} {v : Nat}

theorem pnRecordReadUint16_lt (h : pnRecordReadUint16 reader name = .ok (v, reader')) : v < 2 ^ 16 := by
  obtain ⟨⟨v', r₁⟩, h₁, h⟩ := bind_eq_ok.mp h
  obtain ⟨⟨v'', r₂⟩, _, h₁⟩ := bind_eq_ok.mp h₁
  dsimp only at h₁
  split at h₁
  · cases h₁
    cases h
  · split at h₁
    · cases h₁
    · next hle =>
      cases h₁
      cases h
      omega

theorem readArgTypes_lt {module : PNModule} : ∀ {n : Nat} {reader : PNRecordReader} {args args' : List Nat},
    (∀ t ∈ args, t < module.types.length) → readArgTypes module n reader args = .ok (args', reader') →
    ∀ t ∈ args', t < module.types.length
  | 0, _, _, _, ha, h => by
    cases h
    exact ha
  | n + 1, reader, args, args', ha, h => by
    obtain ⟨⟨typeId, r₁⟩, h₁, h⟩ := bind_eq_ok.mp h
    obtain ⟨hlt, h⟩ := pnCheck_bind_eq_ok.mp h
    refine readArgTypes_lt ?_ h
    intro t ht
    rcases List.mem_append.mp ht with ht | ht
    · exact ha t ht
    · cases List.mem_singleton.mp ht
      rwa [toTypeId, Nat.mod_eq_of_lt (pnRecordReadUint16_lt h₁)] at hlt

end Fields

section Block

variable {host : PNHost} {fuel : Nat} {rs rs' : PNReadState} {bs bs' : PNBitStream} {s : PNTypeState}

/-- NUMENTRY replaces the table. -/
def PNTypeState.announce (s : PNTypeState) (numTypes : Nat) : PNTypeState :=
  { s with rs := { s.rs with
    module := { s.rs.module with types := List.replicate numTypes .unset }
    trace := s.rs.trace ++ [.typeNumEntries numTypes] } }

/-- The table as it was, with entries filled in again, or a new one of which the entries in front of the current id are
filled in. -/
structure TypeInv (rs : PNReadState) (s : PNTypeState) : Prop where
  functions : s.rs.module.functions = rs.module.functions
  values : s.rs.module.values = rs.module.values
  small : s.currentTypeId < 2 ^ 16
  ids : ∀ type ∈ s.rs.module.types, ∀ typeId ∈ type.typeIds, typeId < s.rs.module.types.length
  table : (s.rs.trace = rs.trace ∧ s.rs.module.types.length = rs.module.types.length ∧
      (∀ type ∈ s.rs.module.types, type ≠ .unset) ∧ (s.rs.module.types = [] → s.currentTypeId = 0)) ∨
    (∃ n, s.rs.trace = rs.trace ++ [.typeNumEntries n]) ∧
      ∀ i < s.currentTypeId, s.rs.module.types[i]? ≠ some .unset

theorem TypeInv.fill (h : TypeInv rs s) (hlt : s.currentTypeId < s.rs.module.types.length) {type : PNType}
    (hne : type ≠ .unset) (hids : ∀ typeId ∈ type.typeIds, typeId < s.rs.module.types.length) :
    TypeInv rs (s.fill type) := by
  have hmem : ∀ t ∈ (s.fill type).rs.module.types, t = type ∨ t ∈ s.rs.module.types := by
    intro t ht
    exact (List.mem_or_eq_of_mem_set ht).symm
  refine ⟨h.functions, h.values, Nat.mod_lt _ (by simp), ?_, ?_⟩
  · intro t ht typeId htypeId
    simp only [PNTypeState.fill, List.length_set]
    rcases hmem t ht with rfl | ht
    · exact hids typeId htypeId
    · exact h.ids t ht typeId htypeId
  · rcases h.table with ⟨htrace, hlen, hfilled, _⟩ | ⟨htrace, hfilled⟩
    · refine .inl ⟨htrace, ?_, ?_, ?_⟩
      · simpa [PNTypeState.fill] using hlen
      · intro t ht
        rcases hmem t ht with rfl | ht
        · exact hne
        · exact hfilled t ht
      · intro hnil
        have : s.rs.module.types.length = 0 := by simpa [PNTypeState.fill] using congrArg List.length hnil
        omega
    · refine .inr ⟨htrace, ?_⟩
      -- the id wraps to 0 at `2 ^ 16`
      intro i hi
      have hle : i ≤ s.currentTypeId := Nat.le_of_lt_succ (Nat.lt_of_lt_of_le hi (Nat.mod_le _ _))
      simp only [PNTypeState.fill]
      by_cases heq : s.currentTypeId = i
      · subst heq
        rw [List.getElem?_set_self hlt]
        simpa using hne
      · rw [List.getElem?_set_ne heq]
        exact hfilled i (by omega)

/-- The number of types is announced for the first time. -/
theorem TypeInv.announce (h : TypeInv rs s) (hfresh : ¬TypesAnnounced rs.trace → rs.module.types = [])
    {n : Nat} (hn : ∀ e ∈ s.rs.trace, ¬e.Repeats (.typeNumEntries n)) :
    TypeInv rs (s.announce n) := by
  have hnone : ∀ k, .typeNumEntries k ∉ s.rs.trace := fun k hk => hn _ hk trivial
  rcases h.table with ⟨htrace, hlen, _, hzero⟩ | ⟨⟨k, htrace⟩, _⟩
  · have hnil : s.rs.module.types = [] := by
      apply List.eq_nil_of_length_eq_zero
      rw [hlen, hfresh fun ⟨k, hk⟩ => hnone k (htrace ▸ hk), List.length_nil]
    refine ⟨h.functions, h.values, h.small, ?_, .inr ⟨⟨n, congrArg (· ++ _) htrace⟩, ?_⟩⟩
    · intro type htype
      rw [List.eq_of_mem_replicate htype]
      simp [PNType.typeIds]
    · simp [PNTypeState.announce, hzero hnil]
  · exact absurd (by simp [htrace]) (hnone k)

/-- A type record announces the number of types or fills in the next entry, with ids that are in the table. -/
theorem pnTypeBlock_record_cases {s' : PNTypeState} {code : Nat} {reader : PNRecordReader}
    (h : (pnTypeBlock fuel).record s code reader = .ok (s', bs')) :
    (∃ n, s' = s.announce n) ∨ ∃ type, s.currentTypeId < s.rs.module.types.length ∧ type ≠ .unset ∧
      (∀ typeId ∈ type.typeIds, typeId < s.rs.module.types.length) ∧ s' = s.fill type := by
  simp only [pnTypeBlock] at h
  split at h
  · obtain ⟨⟨n, r₁⟩, _, h⟩ := bind_eq_ok.mp h
    exact .inl ⟨n, finish_eq_ok h⟩
  · obtain ⟨hlt, h⟩ := pnCheck_bind_eq_ok.mp h
    exact .inr ⟨_, hlt, by simp, by simp [PNType.typeIds], finish_eq_ok h⟩
  · obtain ⟨hlt, h⟩ := pnCheck_bind_eq_ok.mp h
    exact .inr ⟨_, hlt, by simp, by simp [PNType.typeIds], finish_eq_ok h⟩
  · obtain ⟨hlt, h⟩ := pnCheck_bind_eq_ok.mp h
    exact .inr ⟨_, hlt, by simp, by simp [PNType.typeIds], finish_eq_ok h⟩
  · obtain ⟨hlt, h⟩ := pnCheck_bind_eq_ok.mp h
    obtain ⟨⟨width, r₁⟩, _, h⟩ := bind_eq_ok.mp h
    obtain ⟨basicType, _, h⟩ := bind_eq_ok.mp h
    exact .inr ⟨_, hlt, by simp, by simp [PNType.typeIds], finish_eq_ok h⟩
  · obtain ⟨hlt, h⟩ := pnCheck_bind_eq_ok.mp h
    obtain ⟨⟨isVarargs, r₁⟩, _, h⟩ := bind_eq_ok.mp h
    obtain ⟨⟨returnType, r₂⟩, _, h⟩ := bind_eq_ok.mp h
    obtain ⟨hret, h⟩ := pnCheck_bind_eq_ok.mp h
    obtain ⟨⟨numArgs, r₃⟩, _, h⟩ := bind_eq_ok.mp h
    obtain ⟨⟨argTypes, r₄⟩, ha, h⟩ := bind_eq_ok.mp h
    refine .inr ⟨_, hlt, by simp, ?_, finish_eq_ok h⟩
    intro t ht
    rcases List.mem_cons.mp ht with rfl | ht
    · exact hret
    · exact readArgTypes_lt (by simp) ha t ht
  · cases h

theorem pnTypeBlock_keeps (hfresh : ¬TypesAnnounced rs.trace → rs.module.types = []) : (pnTypeBlock fuel).Keeps
    (fun s => CountedOnce s.rs.trace → TypeInv rs s)
    (fun s => CountedOnce s.rs.trace → TypeInv rs s ∧ s.currentTypeId = s.rs.module.types.length) := by
  constructor
  · intro s s' bs bs' hs h hc
    obtain ⟨heq, h⟩ := pnCheck_bind_eq_ok.mp h
    cases alignEnd_eq_ok h
    exact ⟨hs hc, heq⟩
  · intro s s' bs bs' hs h
    cases h
  · intro s s' ab hs h
    cases h
    exact hs
  · intro s s' code reader bs' hs h hc
    rcases pnTypeBlock_record_cases h with ⟨n, rfl⟩ | ⟨type, hlt, hne, hids, rfl⟩
    · obtain ⟨hc, _, hn⟩ := List.pairwise_append.mp hc
      refine (hs hc).announce hfresh ?_
      intro e he
      exact hn e he _ (List.mem_singleton_self _)
    · exact (hs hc).fill hlt hne hids

/-- What a type block may change besides the table. -/
structure TypeFrame (rs rs' : PNReadState) : Prop where
  functions : rs'.module.functions = rs.module.functions
  values : rs'.module.values = rs.module.values
  trace : ∃ events, rs'.trace = rs.trace ++ events

theorem pnTypeBlockRead_frame (h : pnTypeBlockRead host fuel rs bs = .ok (rs', bs')) : TypeFrame rs rs' := by
  obtain ⟨⟨s, bs₁⟩, h, hs⟩ := bind_eq_ok.mp h
  cases hs
  have hk : (pnTypeBlock fuel).Keeps (fun s => TypeFrame rs s.rs) (fun s => TypeFrame rs s.rs) := by
    constructor
    · intro s s' bs bs' hs h
      obtain ⟨_, h⟩ := pnCheck_bind_eq_ok.mp h
      cases alignEnd_eq_ok h
      exact hs
    · intro s s' bs bs' hs h
      cases h
    · intro s s' ab hs h
      cases h
      exact hs
    · intro s s' code reader bs' hs h
      rcases pnTypeBlock_record_cases h with ⟨n, rfl⟩ | ⟨type, _, _, _, rfl⟩
      · obtain ⟨events, htrace⟩ := hs.trace
        exact ⟨hs.functions, hs.values, events ++ [.typeNumEntries n], by simp [PNTypeState.announce, htrace]⟩
      · exact ⟨hs.functions, hs.values, hs.trace⟩
  exact readBlock_inv hk ⟨rfl, rfl, [], (List.append_nil _).symm⟩ h

/-- **A table that is announced once is complete after every type block.** -/
theorem pnTypeBlockRead_spec (hok : TypesOk rs.module.types) (hfresh : ¬TypesAnnounced rs.trace → rs.module.types = [])
    (h : pnTypeBlockRead host fuel rs bs = .ok (rs', bs')) (hc : CountedOnce rs'.trace) :
    TypesOk rs'.module.types ∧ rs'.module.functions = rs.module.functions ∧ rs'.module.values = rs.module.values ∧
      ((rs'.trace = rs.trace ∧ rs'.module.types.length = rs.module.types.length) ∨
        ∃ n, rs'.trace = rs.trace ++ [.typeNumEntries n]) := by
  obtain ⟨⟨s, bs₁⟩, h, hs⟩ := bind_eq_ok.mp h
  cases hs
  have h₀ : TypeInv rs ⟨rs, 0⟩ := ⟨rfl, rfl, by simp, hok.ids, .inl ⟨rfl, rfl, hok.filled, fun _ => rfl⟩⟩
  obtain ⟨hs, hend⟩ := readBlock_inv (pnTypeBlock_keeps hfresh) (fun _ => h₀) h hc
  refine ⟨⟨hend ▸ hs.small, ?_, hs.ids⟩, hs.functions, hs.values, ?_⟩
  · intro type htype
    rcases hs.table with ⟨_, _, hfilled, _⟩ | ⟨_, hfilled⟩
    · exact hfilled type htype
    · obtain ⟨i, hi⟩ := List.getElem?_of_mem htype
      have := hfilled i (hend ▸ (List.getElem?_eq_some_iff.mp hi).1)
      rintro rfl
      exact this hi
  · exact hs.table.imp (fun ht => ⟨ht.1, ht.2.1⟩) And.left

end Block

end Pnacl
