import Pnacl.Branch
import Pnacl.FrameOps

/-!
# What holds of the values of frames

A value of a frame counts from the moment at which the function sets it. If every operation sets values with a property `P`, where
those that it copies may be taken to have it, then all that have been set in the frames of a thread have it (`DefinedRun.inv`). `P`
may depend on the function and the id.
-/

namespace Pnacl

open Lib

/-! ## The values that have been set -/

/-- The ids that have been set since the push of the frame at an address. -/
abbrev Defined := Nat → List Nat

/-- More ids of the frame at `a`. -/
def Defined.add (D : Defined) (a : Nat) (ids : List Nat) : Defined := Function.update D a (ids ++ D a)

/-- The ids are values of the function of the entry, and their values have the property. -/
def AllGood (ex : PNExecutor) (P : Nat → Nat → Nat → Prop) (mem : PNWords) (e : Entry) (ids : List Nat) : Prop :=
  ∀ id ∈ ids, ex.numValues ≤ id ∧ e.HasValue ex id ∧ P e.functionId id (mem (e.values + 8 * (id - ex.numValues)))

/-- All values that have been set in the frames have the property. -/
structure ValuesInv (ex : PNExecutor) (P : Nat → Nat → Nat → Prop) (th : PNThread) (D : Defined) (es : List Entry) : Prop where
  frames : FramesInv ex th es
  good : ∀ e ∈ es, AllGood ex P th.mem e (D e.addr)

/-- A value that is copied to another one brings the property along: it is one of the module that has it, or one that is set. -/
def Copies (ex : PNExecutor) (P : Nat → Nat → Nat → Prop) (functionId : Nat) (ids : List Nat) (source destFunctionId dest : Nat) :
    Prop :=
  (source < ex.numValues → P destFunctionId dest (ex.moduleValues source)) ∧
    (ex.numValues ≤ source → source ∈ ids ∧ ∀ w, P functionId source w → P destFunctionId dest w)

section

variable {ex : PNExecutor} {P : Nat → Nat → Nat → Prop} {th th' : PNThread} {D D' : Defined} {mem mem' : PNWords} {e e' : Entry}
  {es : List Entry} {bs : List PNBlock} {ids ids' : List Nat} {destInst : Nat}

theorem Defined.add_self (a : Nat) (ids : List Nat) : D.add a ids a = ids ++ D a := Function.update_self ..

theorem Defined.add_of_ne {a b : Nat} (h : b ≠ a) (ids : List Nat) : D.add a ids b = D b := Function.update_of_ne h ..

theorem Defined.add_nil (a : Nat) : D.add a [] = D := Function.update_eq_self ..

theorem Defined.add_add (a : Nat) (ids ids' : List Nat) : (D.add a ids).add a ids' = D.add a (ids' ++ ids) := by
  simp only [Defined.add, Function.update_self, Function.update_idem, List.append_assoc]

theorem Defined.add_subset {a : Nat} (h : ids' ⊆ ids) (b : Nat) : D.add a ids' b ⊆ D.add a ids b := by
  by_cases hb : b = a
  · rw [hb, Defined.add_self, Defined.add_self]
    exact List.append_subset.mpr ⟨fun x hx => List.mem_append_left _ (h hx), List.subset_append_right _ _⟩
  · rw [Defined.add_of_ne hb, Defined.add_of_ne hb]
    exact List.Subset.refl _

theorem cons_subset_append_singleton {a : Nat} {l : List Nat} : a :: l ⊆ l ++ [a] := by
  intro x hx
  rcases List.mem_cons.mp hx with rfl | hx
  · exact List.mem_append_right _ (List.mem_singleton_self _)
  · exact List.mem_append_left _ hx

theorem AllGood.subset (h : AllGood ex P mem e ids) (hs : ids' ⊆ ids) : AllGood ex P mem e ids' := fun id hid => h id (hs hid)

theorem AllGood.congr (h : AllGood ex P mem e ids) (hs : SameOn mem mem' bs) (hb : e.valuesBlock ex ∈ bs) :
    AllGood ex P mem' e ids := by
  intro id hid
  obtain ⟨hlo, hhi, hp⟩ := h id hid
  refine ⟨hlo, hhi, ?_⟩
  unfold Entry.HasValue at hhi
  have heq : mem' (e.values + 8 * (id - ex.numValues)) = mem (e.values + 8 * (id - ex.numValues)) :=
    hs _ hb _ (Nat.le_add_right ..) (by simp only [Entry.valuesBlock, PNRuntimeValue.sizeof]; omega)
  rw [heq]
  exact hp

/-- One more value is stored. -/
theorem AllGood.update (h : AllGood ex P mem e ids) {id w : Nat} (hlo : ex.numValues ≤ id) (hr : e.HasValue ex id)
    (hw : P e.functionId id w) : AllGood ex P (Function.update mem (e.values + 8 * (id - ex.numValues)) w) e (id :: ids) := by
  intro i hi
  by_cases heq : i = id
  · subst heq
    refine ⟨hlo, hr, ?_⟩
    rw [Function.update_self]
    exact hw
  · obtain ⟨hlo', hhi, hp⟩ := h i ((List.mem_cons.mp hi).resolve_left heq)
    refine ⟨hlo', hhi, ?_⟩
    rw [Function.update_of_ne (by omega)]
    exact hp

theorem Copies.subset {functionId source destFunctionId dest : Nat} (h : Copies ex P functionId ids source destFunctionId dest)
    (hs : ids ⊆ ids') : Copies ex P functionId ids' source destFunctionId dest :=
  ⟨h.1, fun hlo => ⟨hs (h.2 hlo).1, (h.2 hlo).2⟩⟩

/-- The word that is copied. -/
theorem Copies.good {source functionId dest : Nat} (h : Copies ex P e.functionId ids source functionId dest)
    (hg : AllGood ex P mem e ids) {frame : PNCallFrame} (hf : frame.functionValues = e.values) :
    P functionId dest (pnExecutorGetValueFromFrame ex mem frame source) := by
  unfold pnExecutorGetValueFromFrame
  rw [hf]
  split
  · rename_i hlo
    obtain ⟨hmem, hp⟩ := h.2 hlo
    exact hp _ (hg source hmem).2.2
  · exact h.1 (by omega)

theorem Linked.fixed (h : Linked ex mem es) (he : e ∈ es) : ∃ p, e.Fixed p (readFrame mem e.addr) := by
  induction es with
  | nil => cases he
  | cons _ es ih =>
    obtain ⟨-, -, hfix, hl⟩ := h
    rcases List.mem_cons.mp he with rfl | he
    · exact ⟨_, hfix⟩
    · exact ih hl he

theorem FramesInv.values_eq (h : FramesInv ex th es) (he : e ∈ es) : (readFrame th.mem e.addr).functionValues = e.values := by
  obtain ⟨_, hfix⟩ := h.links.fixed he
  exact hfix.values

theorem FramesInv.frameState (h : FramesInv ex th (e :: es)) : FrameState th (ex.functions e.functionId).numValues := by
  have hcur : th.currentFrame = e.addr := h.current
  have hvalues := h.head.values
  refine ⟨h.inv, ?_, ?_, ?_⟩
  · rw [hcur]
    exact h.levels.allocated e.frameBlock (frameBlock_mem (List.mem_cons_self ..))
  · rw [hcur, hvalues]
    exact h.levels.allocated (e.valuesBlock ex) (valuesBlock_mem (List.mem_cons_self ..))
  · rw [hcur, hvalues]
    exact h.frame_values

theorem ValuesInv.mono (h : ValuesInv ex P th D es) (hD : ∀ e ∈ es, D' e.addr ⊆ D e.addr) : ValuesInv ex P th D' es :=
  ⟨h.frames, fun e he => (h.good e he).subset (hD e he)⟩

/-- The thread changes, but no value of a frame. -/
theorem ValuesInv.congr (h : ValuesInv ex P th D es) (hf : FramesInv ex th' es) (hs : SameOn th.mem th'.mem bs)
    (hb : ∀ e ∈ es, e.valuesBlock ex ∈ bs) : ValuesInv ex P th' D es :=
  ⟨hf, fun e he => (h.good e he).congr hs (hb e he)⟩

theorem valuesBlock_mem_cons : ∀ f ∈ e :: es, f.valuesBlock ex ∈ e.valuesBlock ex :: baseBlocks ex es := by
  intro f hf
  rcases List.mem_cons.mp hf with rfl | hf
  · exact List.mem_cons_self ..
  · exact List.mem_cons_of_mem _ (valuesBlock_mem hf)

theorem ValuesInv.prepared {stackTop : Nat} (h : ValuesInv ex P th D (e :: es)) (p : Prepared ex stackTop th th' e es) :
    ValuesInv ex P th' D (e :: es) :=
  h.congr p.inv p.same valuesBlock_mem_cons

/-! ## Setting values -/

/-- Another value of the current frame is set. -/
theorem ValuesInv.set (h : ValuesInv ex P th D (e :: es)) {id w : Nat} (hr : e.HasValue ex id) (hw : P e.functionId id w)
    (hset : pnThreadSetValue ex th id w = .ok th') : ValuesInv ex P th' (D.add e.addr [id]) (e :: es) := by
  have c := h.frames.setValue hr hset
  obtain ⟨hid, -, -, rfl⟩ := setValue_ok hset
  rw [h.frames.current, top, h.frames.head.values] at c ⊢
  refine ⟨h.frames.calm c, ?_⟩
  intro f hf
  rcases List.mem_cons.mp hf with rfl | hf
  · rw [Defined.add_self]
    exact (h.good f (List.mem_cons_self ..)).update hid hr hw
  · rw [Defined.add_of_ne (h.frames.below_ne f hf)]
    exact (h.good f (List.mem_cons_of_mem _ hf)).congr c.same (List.mem_cons_of_mem _ (valuesBlock_mem hf))

theorem ValuesInv.setValues {vs : List (Nat × Nat)} (h : ValuesInv ex P th D (e :: es))
    (hv : ∀ v ∈ vs, e.HasValue ex v.1 ∧ P e.functionId v.1 v.2) (hset : Pnacl.setValues ex th vs = .ok th') :
    ValuesInv ex P th' (D.add e.addr (vs.map Prod.fst)) (e :: es) := by
  induction vs generalizing th D with
  | nil =>
    cases hset
    rwa [List.map_nil, Defined.add_nil]
  | cons v vs ih =>
    obtain ⟨th₁, h₁, hset⟩ := bind_eq_ok.mp hset
    obtain ⟨hr, hw⟩ := hv v (List.mem_cons_self ..)
    have hrest := ih (h.set hr hw h₁) (fun v hv' => hv v (List.mem_cons_of_mem _ hv')) hset
    rw [Defined.add_add] at hrest
    exact hrest.mono fun f _ => Defined.add_subset cons_subset_append_singleton _

/-- CALL copies the arguments from the frame of the caller. -/
theorem ValuesInv.copyArguments {argIds : List Nat} {n : Nat} (h : ValuesInv ex P th D (e' :: e :: es))
    (hc : ∀ (i argId : Nat), argIds[i]? = some argId → e'.HasValue ex (ex.numValues + (n + i)) ∧
      Copies ex P e.functionId (D e.addr) argId e'.functionId (ex.numValues + (n + i)))
    (hs : Pnacl.copyArguments ex e.addr th n argIds = .ok th') :
    ValuesInv ex P th' (D.add e'.addr ((List.range argIds.length).map fun i => ex.numValues + (n + i))) (e' :: e :: es) := by
  induction argIds generalizing th D n with
  | nil =>
    cases hs
    rwa [List.length_nil, List.range_zero, List.map_nil, Defined.add_nil]
  | cons argId argIds ih =>
    obtain ⟨th₁, h₁, hs⟩ := bind_eq_ok.mp hs
    have hcaller : e ∈ e' :: e :: es := List.mem_cons_of_mem _ (List.mem_cons_self ..)
    obtain ⟨hr, hcopy⟩ := hc 0 argId rfl
    have hset := h.set hr (hcopy.good (h.good e hcaller) (h.frames.values_eq hcaller)) h₁
    have hne : e.addr ≠ e'.addr := h.frames.below_ne e (List.mem_cons_self ..)
    have hrest := ih (n := n + 1) hset (fun i argId hi => by
      rw [Defined.add_of_ne hne, show n + 1 + i = n + (i + 1) by omega]
      exact hc (i + 1) argId hi) hs
    rw [Defined.add_add] at hrest
    refine hrest.mono fun f _ => Defined.add_subset ?_ _
    rw [List.length_cons, List.range_succ_eq_map, List.map_cons, List.map_map]
    have hmap : ((fun i => ex.numValues + (n + i)) ∘ Nat.succ) = fun i => ex.numValues + (n + 1 + i) := by
      funext i
      simp only [Function.comp_apply]
      omega
    rw [hmap]
    exact cons_subset_append_singleton

/-- The in-place loop. -/
theorem ValuesInv.phiAssignsInPlace {as : List PNRuntimePhiAssign} (h : ValuesInv ex P th D (e :: es))
    (hr : ∀ a ∈ as, e.HasValue ex a.destValueId)
    (hc : ∀ a ∈ as, a.inst = destInst → Copies ex P e.functionId (D e.addr) a.sourceValueId e.functionId a.destValueId)
    (hs : Pnacl.phiAssignsInPlace ex destInst th as = .ok th') :
    ValuesInv ex P th' (D.add e.addr ((movesTo destInst as).map Move.dest)) (e :: es) := by
  induction as generalizing th D with
  | nil =>
    cases hs
    rwa [movesTo, List.filter_nil, List.map_nil, List.map_nil, Defined.add_nil]
  | cons a as ih =>
    have hr' : ∀ b ∈ as, e.HasValue ex b.destValueId := fun b hb => hr b (List.mem_cons_of_mem _ hb)
    unfold Pnacl.phiAssignsInPlace at hs
    split at hs
    · rename_i heq
      obtain ⟨th₁, h₁, hs⟩ := bind_eq_ok.mp hs
      have hw := (hc a (List.mem_cons_self ..) heq).good (h.good e (List.mem_cons_self ..))
        (h.frames.values_eq (List.mem_cons_self ..))
      unfold pnThreadGetValue at h₁
      rw [h.frames.current] at h₁
      have hset := h.set (hr a (List.mem_cons_self ..)) hw h₁
      have hrest := ih hset hr' (fun b hb hinst => by
        rw [Defined.add_self]
        exact (hc b (List.mem_cons_of_mem _ hb) hinst).subset (List.subset_append_right _ _)) hs
      rw [Defined.add_add] at hrest
      rw [movesTo_cons_of_eq heq, List.map_cons]
      exact hrest.mono fun f _ => Defined.add_subset cons_subset_append_singleton _
    · rename_i hne
      rw [movesTo_cons_of_ne hne]
      exact ih h hr' (fun b hb => hc b (List.mem_cons_of_mem _ hb)) hs

/-- The second pass of the other loop: what is in the array goes to the destinations. -/
theorem ValuesInv.phiAssignsWrite {as : List PNRuntimePhiAssign} {temp : Nat} (h : ValuesInv ex P th D (e :: es))
    (hd : PNBlock.Disjoint ⟨temp, 8 * as.length⟩ (e.valuesBlock ex)) (hr : ∀ a ∈ as, e.HasValue ex a.destValueId)
    (hw : ∀ (i : Nat) (a : PNRuntimePhiAssign), as[i]? = some a → a.inst = destInst →
      P e.functionId a.destValueId (th.mem (temp + 8 * i)))
    (hs : Pnacl.phiAssignsWrite ex destInst th temp as = .ok th') :
    ValuesInv ex P th' (D.add e.addr ((movesTo destInst as).map Move.dest)) (e :: es) := by
  induction as generalizing th D temp with
  | nil =>
    cases hs
    rwa [movesTo, List.filter_nil, List.map_nil, List.map_nil, Defined.add_nil]
  | cons a as ih =>
    have hr' : ∀ b ∈ as, e.HasValue ex b.destValueId := fun b hb => hr b (List.mem_cons_of_mem _ hb)
    simp only [PNBlock.Disjoint, Entry.valuesBlock, PNRuntimeValue.sizeof, List.length_cons] at hd
    have hd' : PNBlock.Disjoint ⟨temp + 8, 8 * as.length⟩ (e.valuesBlock ex) := by
      simp only [PNBlock.Disjoint, Entry.valuesBlock, PNRuntimeValue.sizeof]
      omega
    unfold Pnacl.phiAssignsWrite at hs
    split at hs
    · rename_i heq
      obtain ⟨th₁, h₁, hs⟩ := bind_eq_ok.mp hs
      have hrange := hr a (List.mem_cons_self ..)
      have hset := h.set hrange (hw 0 a rfl heq) h₁
      obtain ⟨hlo, -, -, rfl⟩ := setValue_ok h₁
      have hrest := ih hset hd' hr' (fun i b hb hinst => by
        have hi : i < as.length := (List.getElem?_eq_some_iff.mp hb).1
        have hkeep := hw (i + 1) b hb hinst
        unfold Entry.HasValue at hrange
        rw [h.frames.current, top, h.frames.head.values]
        show P _ _ (Function.update th.mem _ _ _)
        rw [Function.update_of_ne (by omega), show temp + 8 + 8 * i = temp + 8 * (i + 1) by omega]
        exact hkeep) hs
      rw [Defined.add_add] at hrest
      rw [movesTo_cons_of_eq heq, List.map_cons]
      exact hrest.mono fun f _ => Defined.add_subset cons_subset_append_singleton _
    · rename_i hne
      rw [movesTo_cons_of_ne hne]
      exact ih h hd' hr' (fun i b hb hinst => by
        rw [show temp + 8 + 8 * i = temp + 8 * (i + 1) by omega]
        exact hw (i + 1) b hb hinst) hs

/-- What the second pass writes has been read in the first one. -/
theorem ValuesInv.phiAssigns {malloc : Malloc} {fast : Bool} {as : List PNRuntimePhiAssign} (h : ValuesInv ex P th D (e :: es))
    (hm : MallocFresh ex malloc) (hlen : as.length < 2 ^ 16) (hr : ∀ a ∈ as, e.HasValue ex a.destValueId)
    (hf : fast = false → MarkFound th.allocator (pnAllocatorMark th.allocator))
    (hc : ∀ a ∈ as, a.inst = destInst → Copies ex P e.functionId (D e.addr) a.sourceValueId e.functionId a.destValueId)
    (hs : pnThreadDoPhiAssigns ex malloc fast as destInst th = .ok th') :
    ValuesInv ex P th' (D.add e.addr ((movesTo destInst as).map Move.dest)) (e :: es) := by
  have hframes := (h.frames.phiAssigns hm hlen hr hf hs).inv
  cases fast with
  | true => exact h.phiAssignsInPlace hr hc hs
  | false =>
    obtain ⟨temp, a, th₁, ha, hdv, hdf, p, hw, rfl, -⟩ := h.frames.phiFrame hm hlen hs
    have hcur : th.currentFrame = e.addr := h.frames.current
    have hvalues := h.frames.head.values
    rw [← hcur] at hvalues
    have hsources : ∀ (i : Nat) (b : PNRuntimePhiAssign), as[i]? = some b → b.inst = destInst →
        P e.functionId b.destValueId ((phiAssignsRead ex { th with allocator := a } temp as).mem (temp + 8 * i)) := by
      intro i b hb hinst
      have hcopy := hc b (List.mem_of_getElem? hb) hinst
      have hlt : b.sourceValueId < ex.numValues + (ex.functions e.functionId).numValues := by
        rcases Nat.lt_or_ge b.sourceValueId ex.numValues with hlt | hge
        · exact Nat.lt_add_right _ hlt
        · exact (h.good e (List.mem_cons_self ..) _ (hcopy.2 hge).1).2.1
      have hread : (phiAssignsRead ex { th with allocator := a } temp as).mem (temp + 8 * i) =
          pnThreadGetValue ex { th with allocator := a } b.sourceValueId := phiAssignsRead_spec temp _ ha.frameState
        (by dsimp only; rw [hcur]; exact hdf) (by dsimp only; rw [hvalues]; exact hdv) hb hlt
      rw [hread]
      exact hcopy.good (h.good e (List.mem_cons_self ..)) hvalues
    have hvals := (h.prepared p).phiAssignsWrite hdv hr hsources hw
    exact hvals.congr hframes (.refl _ _) fun f hf => valuesBlock_mem hf

end

/-! ## Operations -/

/-- The constants of the functions that can run are values of theirs and have the property. -/
def ConstantsGood (ex : PNExecutor) (P : Nat → Nat → Nat → Prop) : Prop :=
  ∀ functionId, (ex.functions functionId).instructions ≠ 0 → ∀ c ∈ constantValues ex (ex.functions functionId),
    c.1 < ex.numValues + (ex.functions functionId).numValues ∧ P functionId c.1 c.2

/-- Besides constants the operation sets values with the property. -/
def PNThreadOp.Writes (ex : PNExecutor) (P : Nat → Nat → Nat → Prop) (th : PNThread) (D : Defined) : PNThreadOp → Prop
  | .call _ functionId => (ex.functions functionId).instructions ≠ 0 → ∀ (i argId : Nat), (ex.callAt th.inst).argIds[i]? = some argId →
    i < (ex.functions functionId).numValues ∧ Copies ex P th.functionId (D th.currentFrame) argId functionId (ex.numValues + i)
  | .retValue valueId =>
    let caller := (readFrame th.mem (readFrame th.mem th.currentFrame).parent).location
    caller.functionId ≠ PN_INVALID_FUNCTION_ID →
      Copies ex P th.functionId (D th.currentFrame) valueId caller.functionId (ex.callAt caller.inst).resultValueId
  | .setjmp _ => P th.functionId (ex.callAt th.inst).resultValueId 0
  | .longjmp fuel => ∀ id f buf, longjmpId ex th = .ok id →
    searchFrames ex th id fuel th.currentFrame = .ok (some (f, buf)) →
      P (readFrame th.mem f).location.functionId (ex.callAt (readJmpBuf th.mem buf).frame.location.inst).resultValueId
        (longjmpValue ex th)
  | .phiAssigns _ _ assigns destInst => ∀ a ∈ assigns, a.inst = destInst →
    Copies ex P th.functionId (D th.currentFrame) a.sourceValueId th.functionId a.destValueId
  | .other _ _ values _ _ => ∀ v ∈ values, P th.functionId v.1 v.2
  | .ret | .elsewhere _ _ => True

/-- The ids that the operation sets in the frame that is the current one behind it. -/
def PNThreadOp.sets (ex : PNExecutor) (th th' : PNThread) : PNThreadOp → List Nat
  | .call _ functionId =>
    ((List.range (ex.callAt th.inst).argIds.length).map fun i => ex.numValues + i) ++
      (constantValues ex (ex.functions functionId)).map Prod.fst
  | .retValue _ | .longjmp _ => [(ex.callAt (readFrame th'.mem th'.currentFrame).location.inst).resultValueId]
  | .setjmp _ => [(ex.callAt th.inst).resultValueId]
  | .phiAssigns _ _ assigns destInst => (movesTo destInst assigns).map Move.dest
  | .other _ _ values _ _ => values.map Prod.fst
  | .ret | .elsewhere _ _ => []

/-- Of a new frame nothing else has been set. -/
def PNThreadOp.defines (ex : PNExecutor) (th th' : PNThread) (D : Defined) (op : PNThreadOp) : Defined :=
  match op with
  | .call _ _ => Function.update D th'.currentFrame (op.sets ex th th')
  | op => D.add th'.currentFrame (op.sets ex th th')

section

variable {ex : PNExecutor} {P : Nat → Nat → Nat → Prop} {th th' : PNThread} {D : Defined} {e : Entry} {es : List Entry}
  {malloc : Malloc}

/-- The frame that is pushed has no values yet. -/
theorem ValuesInv.push {e' : Entry} (h : ValuesInv ex P th D es) (hf : FramesInv ex th' (e' :: es))
    (hs : SameOn th.mem th'.mem (baseBlocks ex es)) : ValuesInv ex P th' (Function.update D e'.addr []) (e' :: es) := by
  refine ⟨hf, ?_⟩
  intro f hfm
  rcases List.mem_cons.mp hfm with rfl | hfm
  · rw [Function.update_self]
    exact fun _ hid => (List.not_mem_nil hid).elim
  · rw [Function.update_of_ne (hf.below_ne f hfm)]
    exact (h.good f hfm).congr hs (valuesBlock_mem hfm)

/-- `pn_thread_push_function`: the constants are set. -/
theorem ValuesInv.pushFunction {functionId : Nat} {e' : Entry} {th₁ : PNThread} (h : ValuesInv ex P th D es)
    (hp : Pushed ex th th₁ e' es functionId)
    (hc : ∀ c ∈ constantValues ex (ex.functions functionId),
      c.1 < ex.numValues + (ex.functions functionId).numValues ∧ P functionId c.1 c.2)
    (hs : Pnacl.setValues ex th₁ (constantValues ex (ex.functions functionId)) = .ok th') :
    ValuesInv ex P th'
      (Function.update D e'.addr ((constantValues ex (ex.functions functionId)).map Prod.fst)) (e' :: es) := by
  obtain rfl := hp.function
  have hset := (h.push hp.inv hp.same).setValues hc hs
  rwa [Defined.add, Function.update_self, Function.update_idem, List.append_nil] at hset

theorem ValuesInv.call {functionId : Nat} (h : ValuesInv ex P th D (e :: es)) (hm : MallocFresh ex malloc)
    (hconst : ConstantsGood ex P) (hr : ResultInRange ex e.functionId (ex.callAt th.inst))
    (hargs : (PNThreadOp.call malloc functionId).Writes ex P th D) (hc : opcodeCall ex malloc functionId th = .ok th') :
    ∃ e', ValuesInv ex P th' ((PNThreadOp.call malloc functionId).defines ex th th' D) (e' :: e :: es) := by
  obtain ⟨e', th₁, th₂, -, hpush, hinst, hset, hcopy, -⟩ := h.frames.callFrame hm hr hc
  have hsave := h.frames.saveInst
  have h₁ := h.congr hsave.1 hsave.2.1 valuesBlock_mem_cons
  have h₂ := h₁.pushFunction hpush (hconst functionId hinst) hset
  have hne : e.addr ≠ e'.addr := h₂.frames.below_ne e (List.mem_cons_self ..)
  obtain rfl := hpush.function
  have h₃ := h₂.copyArguments (n := 0) (fun i argId hi => by
    obtain ⟨hlt, hcp⟩ := hargs hinst i argId hi
    rw [h.frames.current, h.frames.running e rfl] at hcp
    rw [Function.update_of_ne hne, Nat.zero_add]
    exact ⟨Nat.add_lt_add_left hlt _, hcp⟩) hcopy
  refine ⟨e', h₃.mono fun f _ => ?_⟩
  have hcur : th'.currentFrame = e'.addr := h₃.frames.current
  simp only [PNThreadOp.defines, PNThreadOp.sets, hcur, Defined.add, Function.update_self, Function.update_idem, Nat.zero_add]
  exact List.Subset.refl _

/-- Nothing is set, and the current frame is that of an entry. -/
theorem ValuesInv.add_nil (h : ValuesInv ex P th D es) (a : Nat) : ValuesInv ex P th (D.add a []) es := by
  rwa [Defined.add_nil]

theorem ValuesInv.ret (h : ValuesInv ex P th D (e :: es)) (hf : ReturnFound ex th) (hr : opcodeRet ex th = .ok th') :
    ∃ es', ValuesInv ex P th' D es' ∧ (th'.dead = false → es' ≠ []) := by
  rcases h.frames.ret hf hr with ⟨-, hd, hi⟩ | ⟨e', es', rfl, hto⟩
  · refine ⟨[], ⟨hi, fun _ he => (List.not_mem_nil he).elim⟩, fun hd' => ?_⟩
    rw [hd] at hd'
    cases hd'
  · have hmem : th'.mem = th.mem := hto.mem
    refine ⟨e' :: es', ⟨hto.inv, fun f hfm => ?_⟩, fun _ => List.cons_ne_nil _ _⟩
    rw [hmem]
    exact h.good f (List.mem_cons_of_mem _ hfm)

theorem ValuesInv.retValue {valueId : Nat} (h : ValuesInv ex P th D (e :: es)) (hf : ReturnFound ex th)
    (hw : (PNThreadOp.retValue valueId).Writes ex P th D) (hr : opcodeRetValue ex valueId th = .ok th') :
    ∃ es', ValuesInv ex P th' ((PNThreadOp.retValue valueId).defines ex th th' D) es' ∧ (th'.dead = false → es' ≠ []) := by
  rcases h.frames.retValue hf hr with ⟨-, hd, hi⟩ | ⟨e', es', rfl, hto⟩
  · refine ⟨[], ⟨hi, fun _ he => (List.not_mem_nil he).elim⟩, fun hd' => ?_⟩
    rw [hd] at hd'
    cases hd'
  · have hcaller : e' ∈ e :: e' :: es' := List.mem_cons_of_mem _ (List.mem_cons_self ..)
    have hparent : (readFrame th.mem th.currentFrame).parent = e'.addr := h.frames.parent_eq
    obtain ⟨hlo, hrange⟩ := hto.result valueId rfl
    obtain ⟨_, hfix⟩ := h.frames.links.fixed hcaller
    have hnext := hto.inv.links.fixed (List.mem_cons_self ..)
    have hne : e'.functionId ≠ PN_INVALID_FUNCTION_ID := hto.inv.links.2.1
    simp only [PNThreadOp.Writes, hparent, hfix.functionId] at hw
    have hcopy := hw hne
    rw [h.frames.current, h.frames.running e rfl] at hcopy
    have hword : P e'.functionId (ex.callAt (readFrame th.mem e'.addr).location.inst).resultValueId
        (pnThreadGetValue ex th valueId) := by
      unfold pnThreadGetValue
      rw [h.frames.current]
      exact hcopy.good (h.good e (List.mem_cons_self ..)) (h.frames.values_eq (List.mem_cons_self ..))
    have hframe : readFrame th'.mem e'.addr = readFrame th.mem e'.addr := hto.same.readFrame (List.mem_cons_self ..)
    have hcur : th'.currentFrame = e'.addr := hto.inv.current
    refine ⟨e' :: es', ⟨hto.inv, fun f hfm => ?_⟩, fun _ => List.cons_ne_nil _ _⟩
    simp only [PNThreadOp.defines, PNThreadOp.sets, hcur, hframe]
    rcases List.mem_cons.mp hfm with rfl | hfm
    · rw [Defined.add_self, hto.mem]
      exact (h.good f hcaller).update hlo hrange hword
    · rw [Defined.add_of_ne (hto.inv.below_ne f hfm)]
      exact (h.good f (List.mem_cons_of_mem _ (List.mem_cons_of_mem _ hfm))).congr hto.same
        (List.mem_cons_of_mem _ (valuesBlock_mem hfm))

theorem ValuesInv.setjmp (h : ValuesInv ex P th D (e :: es)) (hm : MallocFresh ex malloc)
    (hr : ResultInRange ex e.functionId (ex.callAt th.inst)) (hw : (PNThreadOp.setjmp malloc).Writes ex P th D)
    (hs : opcodeSetjmp ex malloc th = .ok th') :
    ValuesInv ex P th' ((PNThreadOp.setjmp malloc).defines ex th th' D) (e :: es) := by
  have hframes := (h.frames.setjmp hm hr hs).inv
  obtain ⟨th₀, th₁, p, hne, hset, heq⟩ := h.frames.setjmpFrame hm hs
  have hrange : e.HasValue ex (ex.callAt th.inst).resultValueId := by
    rcases hr with hinv | hin
    · exact absurd hinv hne
    · exact hin.2
  simp only [PNThreadOp.Writes, h.frames.running e rfl] at hw
  have hvals := (h.prepared p).set hrange hw hset
  have hmem : th'.mem = th₁.mem := by rw [heq]
  have hcur : th'.currentFrame = e.addr := hframes.current
  simp only [PNThreadOp.defines, PNThreadOp.sets, hcur]
  exact ⟨hframes, fun f hf => hmem ▸ hvals.good f hf⟩

theorem ValuesInv.longjmp {fuel : Nat} (h : ValuesInv ex P th D es) (hf : LongjmpFound ex fuel th)
    (hw : (PNThreadOp.longjmp fuel).Writes ex P th D) (hl : opcodeLongjmp ex fuel th = .ok th') :
    ∃ e post, ValuesInv ex P th' ((PNThreadOp.longjmp fuel).defines ex th th' D) (e :: post) := by
  obtain ⟨pre, e, post, id, buf, rfl, hid, hfound, hm, hi, hj⟩ := h.frames.longjmpFrame hf hl
  obtain ⟨th₀, th₁, p, hframe, hrange, hset, heq⟩ := h.frames.jumpToFrame hi hm hj
  have hmem : th'.mem = th₁.mem := by rw [heq]
  have hframes : FramesInv ex th' (e :: post) := (h.frames.jumpTo hi hm hj).inv
  obtain ⟨_, hfix⟩ := h.frames.links.fixed (List.mem_append_right pre (List.mem_cons_self (a := e) (l := post)))
  have hword := hw id e.addr buf hid hfound
  rw [hfix.functionId] at hword
  -- the frames above are gone, the record of this one is that of the buffer
  have h₀ : ValuesInv ex P th₀ D (e :: post) :=
    ⟨p.inv, fun f hfm => (h.good f (List.mem_append_right _ hfm)).congr p.same (valuesBlock_mem_cons f hfm)⟩
  have hvals := h₀.set hrange hword hset
  have hframe' : readFrame th₁.mem e.addr = (readJmpBuf th.mem buf).frame :=
    ((p.inv.setValue hrange hset).readFrame e (List.mem_cons_self ..)).trans hframe
  have hcur : th'.currentFrame = e.addr := hframes.current
  refine ⟨e, post, hframes, ?_⟩
  simp only [PNThreadOp.defines, PNThreadOp.sets, hcur, hmem, hframe']
  exact hvals.good

theorem ValuesInv.other {inst locationInst stackTop : Nat} {values : List (Nat × Nat)} {memory : PNMemory}
    (h : ValuesInv ex P th D (e :: es)) (hr : ∀ v ∈ values, e.HasValue ex v.1)
    (hw : (PNThreadOp.other inst locationInst values stackTop memory).Writes ex P th D)
    (hs : (PNThreadOp.other inst locationInst values stackTop memory).exec ex th = .ok th') :
    ValuesInv ex P th' ((PNThreadOp.other inst locationInst values stackTop memory).defines ex th th' D) (e :: es) := by
  have hframes := (h.frames.other hr hs).inv
  obtain ⟨th₀, th₁, p, hset, rfl⟩ := h.frames.otherFrame hs
  simp only [PNThreadOp.Writes, h.frames.running e rfl] at hw
  have hvals := (h.prepared p).setValues (fun v hv => ⟨hr v hv, hw v hv⟩) hset
  have hcur : th₁.currentFrame = e.addr := hvals.frames.current
  refine ⟨hframes, ?_⟩
  simp only [PNThreadOp.defines, PNThreadOp.sets, hcur]
  exact hvals.good

/-- A value that is set can be read. -/
theorem ValuesInv.read (h : ValuesInv ex P th D (e :: es)) {id : Nat} (hid : id ∈ D th.currentFrame) :
    P th.functionId id (pnThreadGetValue ex th id) := by
  have hcur : th.currentFrame = e.addr := h.frames.current
  rw [hcur] at hid
  obtain ⟨hlo, -, hp⟩ := h.good e (List.mem_cons_self ..) id hid
  rw [h.frames.running e rfl, pnThreadGetValue, pnExecutorGetValueFromFrame, if_pos hlo, hcur,
    h.frames.values_eq (List.mem_cons_self ..)]
  exact hp

/-- **A step that is safe and sets good values keeps all values good.** -/
theorem ValuesInv.step (h : ValuesInv ex P th D (e :: es)) (hc : ConstantsGood ex P) {op : PNThreadOp} (hp : op.Promised ex th)
    (hs : op.FrameSafe ex th) (hw : op.Writes ex P th D) (he : op.exec ex th = .ok th') :
    ∃ es', ValuesInv ex P th' (op.defines ex th th' D) es' ∧ (th'.dead = false → es' ≠ []) := by
  have hrun : th.functionId = e.functionId := h.frames.running e rfl
  have hcur : th.currentFrame = e.addr := h.frames.current
  have hval : ∀ id, id < ex.numValues + (ex.functions th.functionId).numValues → e.HasValue ex id := by
    intro id hid
    rw [hrun] at hid
    exact hid
  cases op with
  | call malloc functionId =>
    obtain ⟨hm, hr⟩ := hp
    obtain ⟨e', hv⟩ := h.call hm hc (hrun ▸ hr) hw he
    exact ⟨_, hv, fun _ => List.cons_ne_nil _ _⟩
  | ret =>
    obtain ⟨es', hv, hne⟩ := h.ret hs he
    exact ⟨es', hv.add_nil _, hne⟩
  | retValue valueId => exact h.retValue hs hw he
  | setjmp malloc =>
    obtain ⟨hm, hr⟩ := hp
    exact ⟨_, h.setjmp hm (hrun ▸ hr) hw he, fun _ => List.cons_ne_nil _ _⟩
  | longjmp fuel =>
    obtain ⟨e', post, hv⟩ := h.longjmp hs hw he
    exact ⟨_, hv, fun _ => List.cons_ne_nil _ _⟩
  | phiAssigns malloc fast assigns destInst =>
    obtain ⟨hm, hlen, hr⟩ := hp
    obtain ⟨th₁, hd, he⟩ := bind_eq_ok.mp he
    cases he
    simp only [PNThreadOp.Writes, hrun, hcur] at hw
    have hv := h.phiAssigns hm hlen (fun a ha => hval _ (hr a ha)) hs hw hd
    have hcur' : th₁.currentFrame = e.addr := hv.frames.current
    have hframes : FramesInv ex { th₁ with inst := destInst } (e :: es) := hv.frames.fields rfl rfl rfl rfl
    refine ⟨_, ⟨hframes, ?_⟩, fun _ => List.cons_ne_nil _ _⟩
    simp only [PNThreadOp.defines, PNThreadOp.sets, hcur']
    exact hv.good
  | other inst locationInst values stackTop memory =>
    exact ⟨_, h.other (fun v hv => hval _ (hp v hv)) hw he, fun _ => List.cons_ne_nil _ _⟩
  | elsewhere setjmps memory =>
    cases he
    have hframes : FramesInv ex { th with numSetjmps := th.numSetjmps + setjmps, memory := memory } (e :: es) :=
      h.frames.fields rfl rfl rfl rfl
    exact ⟨_, ValuesInv.add_nil ⟨hframes, h.good⟩ _, fun _ => List.cons_ne_nil _ _⟩

end

/-! ## Runs -/

/-- `pn_function_pointer_to_index`. -/
def pnFunctionPointerToIndex (fp : Nat) : Nat := fp / 4

/-- `pn_builtin_NACL_IRT_THREAD_CREATE`, as far as it concerns the new thread. -/
def pnThreadCreate (ex : PNExecutor) (malloc : Malloc) (mem : PNWords) (memory : PNMemory) (mark : PNAllocatorMark)
    (numSetjmps startFuncP stackP : Nat) : Except Stop PNThread := do
  let a ← pnAllocatorInit (64 * 1024)
  let sentinelFrame : PNCallFrame := ⟨⟨PN_INVALID_FUNCTION_ID, 0⟩, mark, 0, 0, 0, ex.stackEnd⟩
  let th : PNThread := {
    allocator := a
    mem := writeFrame mem ex.sentinel sentinelFrame
    currentFrame := ex.sentinel
    inst := 0
    functionId := PN_INVALID_FUNCTION_ID
    memory := memory
    numSetjmps := numSetjmps
    dead := false }
  let newFunctionId := pnFunctionPointerToIndex startFuncP
  pnCheck (newFunctionId ≥ PN_MAX_BUILTINS) "new_function_id >= PN_MAX_BUILTINS"
  let newFunctionId := newFunctionId - PN_MAX_BUILTINS
  pnCheck (newFunctionId < ex.numFunctions) "function_id < module->num_functions"
  let th ← pnThreadPushFunction ex malloc th newFunctionId
  .ok (th.modifyFrame fun f => { f with memoryStackTop := stackP })

/-- The ids of the constants of a function. -/
def PNExecutor.constantIds (ex : PNExecutor) (functionId : Nat) : List Nat :=
  (constantValues ex (ex.functions functionId)).map Prod.fst

/-- The runs of the start thread and of created threads in which every step meets `S`, with the values that the frames have set. -/
inductive DefinedRun (ex : PNExecutor) (S : Defined → PNThread → PNThreadOp → Prop) : PNThread → Defined → Prop where
  | start (malloc : Malloc) (mem : PNWords) (memory : PNMemory) (mark : PNAllocatorMark) {th : PNThread}
      (hm : MallocFresh ex malloc) (h : pnExecutorInit ex malloc mem memory mark = .ok th) :
      DefinedRun ex S th
        (Function.update (fun _ => []) th.currentFrame (ex.numValues :: ex.constantIds ex.startFunctionId))
  | create (malloc : Malloc) (mem : PNWords) (memory : PNMemory) (mark : PNAllocatorMark) (numSetjmps startFuncP stackP : Nat)
      {th : PNThread} (hm : MallocFresh ex malloc)
      (h : pnThreadCreate ex malloc mem memory mark numSetjmps startFuncP stackP = .ok th) :
      DefinedRun ex S th (Function.update (fun _ => []) th.currentFrame (ex.constantIds th.functionId))
  | step {th th' : PNThread} {D : Defined} (op : PNThreadOp) (h : DefinedRun ex S th D) (alive : th.dead = false)
      (hp : op.Promised ex th) (hs : S D th op) (he : op.exec ex th = .ok th') : DefinedRun ex S th' (op.defines ex th th' D)

section

variable {ex : PNExecutor} {P : Nat → Nat → Nat → Prop} {S : Defined → PNThread → PNThreadOp → Prop} {th th' : PNThread}
  {D : Defined} {e : Entry} {es : List Entry} {malloc : Malloc} {mem : PNWords} {memory : PNMemory} {mark : PNAllocatorMark}

/-- The function of a new thread. -/
theorem ValuesInv.first {th₀ : PNThread} {functionId : Nat} (h : FramesInv ex th₀ []) (hm : MallocFresh ex malloc)
    (hfid : functionId ≠ PN_INVALID_FUNCTION_ID) (hc : ConstantsGood ex P)
    (hp : pnThreadPushFunction ex malloc th₀ functionId = .ok th) : ∃ e, e.functionId = functionId ∧ th.dead = th₀.dead ∧
      ValuesInv ex P th (Function.update (fun _ => []) e.addr (ex.constantIds functionId)) [e] := by
  obtain ⟨e, th₁, hpush, hinst, hset⟩ := h.pushFrame hm hfid (fun _ he => (List.not_mem_nil he).elim) hp
  have h₀ : ValuesInv ex P th₀ (fun _ => []) [] := ⟨h, fun _ he => (List.not_mem_nil he).elim⟩
  have hpushed := hpush.calm (hpush.inv.sets_last hpush.last (setValues_sets (P := fun _ => True) (fun _ _ => trivial) hset))
  exact ⟨e, hpush.function, hpushed.dead, h₀.pushFunction hpush (hc functionId hinst) hset⟩

/-- `pn_executor_init` also sets the parameter. -/
theorem pnExecutorInit_values (hm : MallocFresh ex malloc) (hc : ConstantsGood ex P)
    (hs : (ex.functions ex.startFunctionId).instructions ≠ 0 →
      0 < (ex.functions ex.startFunctionId).numValues ∧ P ex.startFunctionId ex.numValues ex.startinfoStart)
    (h : pnExecutorInit ex malloc mem memory mark = .ok th) : ∃ e, th.dead = false ∧
      ValuesInv ex P th
        (Function.update (fun _ => []) th.currentFrame (ex.numValues :: ex.constantIds ex.startFunctionId)) [e] := by
  obtain ⟨a, ha, h⟩ := bind_eq_ok.mp h
  obtain ⟨hfid, h⟩ := pnCheck_bind_eq_ok.mp h
  obtain ⟨hinst, h⟩ := pnCheck_bind_eq_ok.mp h
  obtain ⟨th₁, hp, h⟩ := bind_eq_ok.mp h
  obtain ⟨hpos, hparam⟩ := hs hinst
  obtain ⟨_, hset⟩ := pnCheck_bind_eq_ok.mp h
  obtain ⟨e, hfun, hdead, hv⟩ := ValuesInv.first (startThread_frames mem memory mark 0 ha) hm hfid hc hp
  have hrange : e.HasValue ex ex.numValues := by
    unfold Entry.HasValue
    rw [hfun]
    exact Nat.lt_add_of_pos_right hpos
  have hv' := hv.set hrange (hfun ▸ hparam) hset
  have hcur : th.currentFrame = e.addr := hv'.frames.current
  obtain ⟨-, -, -, rfl⟩ := setValue_ok hset
  refine ⟨e, hdead, ?_⟩
  rw [hcur]
  rwa [Defined.add, Function.update_self, Function.update_idem] at hv'

theorem pnThreadCreate_values {numSetjmps startFuncP stackP : Nat} (hm : MallocFresh ex malloc) (hc : ConstantsGood ex P)
    (h : pnThreadCreate ex malloc mem memory mark numSetjmps startFuncP stackP = .ok th) : ∃ e, th.dead = false ∧
      ValuesInv ex P th (Function.update (fun _ => []) th.currentFrame (ex.constantIds th.functionId)) [e] := by
  obtain ⟨a, ha, h⟩ := bind_eq_ok.mp h
  obtain ⟨_, h⟩ := pnCheck_bind_eq_ok.mp h
  obtain ⟨hlt, h⟩ := pnCheck_bind_eq_ok.mp h
  obtain ⟨th₁, hp, h⟩ := bind_eq_ok.mp h
  cases h
  have hfid : pnFunctionPointerToIndex startFuncP - PN_MAX_BUILTINS ≠ PN_INVALID_FUNCTION_ID := by
    have := ex.numFunctions_lt
    unfold PN_INVALID_FUNCTION_ID
    omega
  obtain ⟨e, hfun, hdead, hv⟩ := ValuesInv.first (startThread_frames mem memory mark numSetjmps ha) hm hfid hc hp
  have hfix := hv.frames.head
  obtain ⟨hframes, hsame, -⟩ := hv.frames.modifyFrame (f := fun f => { f with memoryStackTop := stackP })
    ⟨hfix.functionId, hfix.mark, hfix.values, hfix.parent⟩
  have hcur : (th₁.modifyFrame fun f => { f with memoryStackTop := stackP }).currentFrame = e.addr := hframes.current
  have hrun : (th₁.modifyFrame fun f => { f with memoryStackTop := stackP }).functionId = e.functionId := hframes.running e rfl
  refine ⟨e, hdead, ?_⟩
  rw [hcur, hrun, hfun]
  exact hv.congr hframes hsame valuesBlock_mem_cons

/-- **If every step is safe and sets good values, all values that are set are good in every state.** -/
theorem DefinedRun.inv (hc : ConstantsGood ex P)
    (hstart : (ex.functions ex.startFunctionId).instructions ≠ 0 →
      0 < (ex.functions ex.startFunctionId).numValues ∧ P ex.startFunctionId ex.numValues ex.startinfoStart)
    (hS : ∀ {D th op e es}, ValuesInv ex P th D (e :: es) → S D th op → op.FrameSafe ex th ∧ op.Writes ex P th D)
    (h : DefinedRun ex S th D) :
    ∃ es, ValuesInv ex P th D es ∧ (th.dead = false → es ≠ []) := by
  induction h with
  | start malloc mem memory mark hm h =>
    obtain ⟨e, -, hv⟩ := pnExecutorInit_values hm hc hstart h
    exact ⟨[e], hv, fun _ => List.cons_ne_nil _ _⟩
  | create malloc mem memory mark numSetjmps startFuncP stackP hm h =>
    obtain ⟨e, -, hv⟩ := pnThreadCreate_values hm hc h
    exact ⟨[e], hv, fun _ => List.cons_ne_nil _ _⟩
  | step op _ alive hp hs he ih =>
    obtain ⟨es, hv, hne⟩ := ih
    cases es with
    | nil => exact absurd rfl (hne alive)
    | cons e es =>
      obtain ⟨hsafe, hw⟩ := hS hv hs
      exact hv.step hc hp hsafe hw he

theorem Linked.frameChain (h : Linked ex mem es) : FrameChain ex mem (top ex es) (es.map Entry.addr) := by
  induction es with
  | nil => exact .nil
  | cons e es ih =>
    obtain ⟨hne, -, hfix, hl⟩ := h
    have hparent : (readFrame mem e.addr).parent = top ex es := hfix.parent
    exact .cons hne (hparent ▸ ih hl)

/-- The frames of the chain are those of the entries. -/
theorem Linked.mem_of_frameChain {f : Nat} {fs : List Nat} (h : Linked ex mem es) (hc : FrameChain ex mem (top ex es) fs)
    (hf : f ∈ fs) : ∃ e ∈ es, f = e.addr := by
  induction es generalizing fs with
  | nil =>
    cases hc with
    | nil => cases hf
    | cons hne _ => exact absurd rfl hne
  | cons e es ih =>
    obtain ⟨hne, -, hfix, hl⟩ := h
    have hparent : (readFrame mem e.addr).parent = top ex es := hfix.parent
    rw [top] at hc
    generalize hp : e.addr = p at hc hne hparent
    cases hc with
    | nil => exact absurd rfl hne
    | cons _ ht =>
      rcases List.mem_cons.mp hf with rfl | hf
      · exact ⟨e, List.mem_cons_self .., hp.symm⟩
      · rw [hparent] at ht
        obtain ⟨e', he', rfl⟩ := ih hl ht hf
        exact ⟨e', List.mem_cons_of_mem _ he', rfl⟩

/-- What the invariant says of a frame. -/
theorem ValuesInv.frame (h : ValuesInv ex P th D es) {fs : List Nat} (hc : FrameChain ex th.mem th.currentFrame fs) {f id : Nat}
    (hf : f ∈ fs) (hid : id ∈ D f) :
    P (readFrame th.mem f).location.functionId id (pnExecutorGetValueFromFrame ex th.mem (readFrame th.mem f) id) := by
  rw [h.frames.current] at hc
  obtain ⟨e, he, rfl⟩ := h.frames.links.mem_of_frameChain hc hf
  obtain ⟨_, hfix⟩ := h.frames.links.fixed he
  obtain ⟨hlo, -, hp⟩ := h.good e he id hid
  rw [hfix.functionId, pnExecutorGetValueFromFrame, if_pos hlo, hfix.values]
  exact hp

end

end Pnacl
