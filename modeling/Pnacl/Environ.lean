import Pnacl.Basic
import Mathlib.Data.List.Basic
import Mathlib.Data.List.Perm.Basic
import Mathlib.Tactic.Ring

/-!
# The environment of the guest

`--env` and `--use-host-env` build the environment with `pn_environ_put` and `pn_environ_put_all`: a list of strings `KEY=VALUE`.
An entry is looked up by comparing as many characters as the key has (`strncasecmp`), so an entry with a longer key can be taken
for it. `pnEnvironPut_iff`: a put works as on a map from keys to values iff the entry that is found is the one with the key.
-/

namespace Pnacl

/-- The characters of a C string in front of the terminating zero. -/
abbrev CString := List UInt8

/-- `tolower` in the C locale. -/
def tolower (c : UInt8) : UInt8 := if 65 ≤ c ∧ c ≤ 90 then c + 32 else c

/-- `strncasecmp`. -/
def strncasecmp : CString → CString → Nat → Int
  | _, _, 0 => 0
  | s, t, n + 1 =>
    let c := tolower (s.headD 0)
    let d := tolower (t.headD 0)
    if c ≠ d then c.toNat - d.toNat else if c = 0 then 0 else strncasecmp s.tail t.tail n

/-- An `int` where a `size_t` is expected. -/
def sizeOfInt (n : Nat) : Nat := if n % 2 ^ 32 < 2 ^ 31 then n % 2 ^ 32 else 2 ^ 64 - 2 ^ 32 + n % 2 ^ 32

/-- `'='`. -/
def PN_EQUALS : UInt8 := 61

/-- The part before the first `=`, or all of it. -/
def environKey (value : CString) : CString := value.takeWhile (· ≠ PN_EQUALS)

/-- `equals == NULL`. -/
def removesKey (value : CString) : Bool := !value.contains PN_EQUALS

/-- `strncasecmp(value, *env, count) == 0`. -/
def environMatches (value env : CString) : Bool := strncasecmp value env (sizeOfInt (environKey value).length) = 0

/-- The loop of `pn_environ_put`: the list behind it, if an entry matches. -/
def environPutLoop (value : CString) : List CString → Option (List CString)
  | [] => none
  | env :: rest =>
    if environMatches value env then some (if removesKey value then rest else value :: rest)
    else (environPutLoop value rest).map (env :: ·)

/-- `pn_environ_put`. -/
def pnEnvironPut (environ : List CString) (value : CString) : List CString :=
  match environPutLoop value environ with
  | some environ => environ
  | none => if removesKey value then environ else environ ++ [value]

/-- `pn_environ_put_all`. -/
def pnEnvironPutAll (environ : List CString) : List CString → List CString
  | [] => environ
  | env :: rest => pnEnvironPutAll (pnEnvironPut environ env) rest

/-! ## Maps -/

/-- The keys are equal up to case. -/
def SameKey (s t : CString) : Prop := (environKey s).map tolower = (environKey t).map tolower

instance (s t : CString) : Decidable (SameKey s t) := inferInstanceAs (Decidable (_ = _))

/-- The list without the entries that have the key. -/
def withoutKey (value : CString) (environ : List CString) : List CString := environ.filter fun env => ¬SameKey value env

/-- What a put means for a map: the other keys stay as they are, and of this one there is the new entry or none. -/
structure PutsEntry (environ : List CString) (value : CString) (environ' : List CString) : Prop where
  others : withoutKey value environ' = withoutKey value environ
  only : environ'.filter (fun env => SameKey value env) = if removesKey value then [] else [value]

/-- No two entries have the same key. -/
def DistinctKeys (environ : List CString) : Prop := environ.Pairwise fun s t => ¬SameKey s t

/-- The first entry that matches is the one with the key, and if there is none no entry has it. -/
def FindsKey (environ : List CString) (value : CString) : Prop :=
  environ.find? (environMatches value) = environ.find? fun env => SameKey value env

/-- The environments that puts meeting `S` build. -/
inductive EnvironRun (S : List CString → CString → Prop) : List CString → Prop where
  | init : EnvironRun S []
  | put {environ : List CString} (value : CString) (h : EnvironRun S environ) (hS : S environ value) :
      EnvironRun S (pnEnvironPut environ value)
  | putAll {environ : List CString} (values : List CString) (h : EnvironRun S environ)
      (hS : ∀ before value rest, values = before ++ value :: rest → S (pnEnvironPutAll environ before) value) :
      EnvironRun S (pnEnvironPutAll environ values)

variable {environ environ' : List CString} {value s t u : CString}

/-! ## What the comparison finds -/

theorem tolower_eq_zero {c : UInt8} (h : tolower c = 0) : c = 0 := by
  have hall : ∀ c : Fin 256, tolower (.ofNat c) = 0 → UInt8.ofNat c = 0 := by decide +kernel
  simpa using hall ⟨c.toNat, c.toNat_lt⟩ (by simpa using h)

theorem tolower_eq_equals {c : UInt8} (h : tolower c = PN_EQUALS) : c = PN_EQUALS := by
  have hall : ∀ c : Fin 256, tolower (.ofNat c) = PN_EQUALS → UInt8.ofNat c = PN_EQUALS := by decide +kernel
  simpa using hall ⟨c.toNat, c.toNat_lt⟩ (by simpa using h)

theorem strncasecmp_cons_ne {c d : UInt8} (s t : CString) (n : Nat) (h : tolower c ≠ tolower d) :
    strncasecmp (c :: s) (d :: t) (n + 1) ≠ 0 := by
  have hne : (tolower c).toNat ≠ (tolower d).toNat := fun he => h (UInt8.toNat_inj.mp he)
  have heq : strncasecmp (c :: s) (d :: t) (n + 1) = (tolower c).toNat - (tolower d).toNat := if_pos h
  omega

theorem strncasecmp_cons_eq {c d : UInt8} (s t : CString) (n : Nat) (h : tolower c = tolower d) (hc : tolower c ≠ 0) :
    strncasecmp (c :: s) (d :: t) (n + 1) = strncasecmp s t n :=
  (if_neg (not_not.mpr h)).trans (if_neg hc)

/-- A string without zeros is compared as far as it goes. -/
theorem strncasecmp_append_eq_zero : ∀ {key : CString} (rest t : CString), 0 ∉ key →
    (strncasecmp (key ++ rest) t key.length = 0 ↔ key.map tolower <+: t.map tolower)
  | [], _, _, _ => by simp [strncasecmp]
  | c :: key, rest, t, h => by
    have hc : tolower c ≠ 0 := by
      intro hc
      exact h (by simp [tolower_eq_zero hc])
    have ih := fun t => strncasecmp_append_eq_zero rest t fun hk => h (List.mem_cons_of_mem c hk)
    cases t with
    | nil =>
      -- the terminating zero of `t` ends the comparison
      have hne := strncasecmp_cons_ne (c := c) (d := 0) (key ++ rest) [] key.length hc
      simp only [List.map_nil, List.prefix_nil, List.map_cons, reduceCtorEq, iff_false]
      exact hne
    | cons d t =>
      simp only [List.map_cons, List.cons_prefix_cons]
      by_cases hcd : tolower c = tolower d
      · have heq := strncasecmp_cons_eq (key ++ rest) t key.length hcd hc
        rw [List.cons_append, List.length_cons, heq, ih t]
        simp [hcd]
      · have hne := strncasecmp_cons_ne (key ++ rest) t key.length hcd
        simp only [hcd, false_and, iff_false]
        exact hne

theorem environKey_eq_append (value : CString) : ∃ rest, value = environKey value ++ rest :=
  ⟨_, (List.takeWhile_append_dropWhile ..).symm⟩

/-- A key goes as far into an entry as into the entry's key, as it has no `=`. -/
theorem environKey_prefix_iff (value env : CString) :
    (environKey value).map tolower <+: env.map tolower ↔ (environKey value).map tolower <+: (environKey env).map tolower := by
  have hall : ∀ c ∈ (environKey value).map tolower, c ≠ PN_EQUALS := by
    intro c hc
    obtain ⟨d, hd, rfl⟩ := List.mem_map.mp hc
    intro he
    have hne : d ≠ PN_EQUALS := by simpa using List.all_eq_true.mp List.all_takeWhile d hd
    exact hne (tolower_eq_equals he)
  generalize (environKey value).map tolower = key at hall
  induction key generalizing env with
  | nil => simp
  | cons c key ih =>
    cases env with
    | nil => rfl
    | cons d env =>
      have ih := ih env fun c hc => hall c (List.mem_cons_of_mem _ hc)
      by_cases hd : d = PN_EQUALS
      · subst hd
        have hc : c ≠ tolower PN_EQUALS := hall c (by simp)
        simp [environKey, hc]
      · have hkey : environKey (d :: env) = d :: environKey env := List.takeWhile_cons_of_pos (by simpa using hd)
        rw [hkey]
        simp only [List.map_cons, List.cons_prefix_cons, ih]

/-- The entries that match are those whose key begins with the key. -/
theorem environMatches_iff (hlen : value.length < 2 ^ 31) (hnul : 0 ∉ value) (env : CString) :
    environMatches value env ↔ (environKey value).map tolower <+: (environKey env).map tolower := by
  obtain ⟨rest, heq⟩ := environKey_eq_append value
  have hkey : (environKey value).length < 2 ^ 31 := by
    have := congrArg List.length heq
    rw [List.length_append] at this
    omega
  have hcount : sizeOfInt (environKey value).length = (environKey value).length := by
    unfold sizeOfInt
    rw [if_pos (by omega)]
    omega
  have hnul' : 0 ∉ environKey value := fun h => hnul (by rw [heq]; exact List.mem_append_left _ h)
  rw [← environKey_prefix_iff, ← strncasecmp_append_eq_zero rest env hnul', ← heq]
  simp [environMatches, hcount]

/-- With no key in the environment that goes on behind the key, a put finds its key. -/
theorem findsKey_of_no_longer (hlen : value.length < 2 ^ 31) (hnul : 0 ∉ value)
    (h : ∀ env ∈ environ, (environKey value).map tolower <+: (environKey env).map tolower → SameKey value env) :
    FindsKey environ value := by
  unfold FindsKey
  induction environ with
  | nil => rfl
  | cons env rest ih =>
    have hmatch := environMatches_iff hlen hnul env
    rw [List.find?_cons, List.find?_cons, ih fun e he => h e (List.mem_cons_of_mem _ he)]
    by_cases hk : SameKey value env
    · have hm : environMatches value env = true := hmatch.mpr ⟨[], (List.append_nil _).trans hk⟩
      simp [hm, hk]
    · have hm : environMatches value env = false := by
        rw [Bool.eq_false_iff]
        exact fun hm => hk (h env (by simp) (hmatch.mp hm))
      simp [hm, hk]

/-! ## The loop -/

theorem SameKey.symm (h : SameKey s t) : SameKey t s := Eq.symm h

theorem SameKey.trans (h : SameKey s t) (h' : SameKey t u) : SameKey s u := Eq.trans h h'

theorem environPutLoop_eq_none_iff : environPutLoop value environ = none ↔ environ.find? (environMatches value) = none := by
  induction environ with
  | nil => simp [environPutLoop]
  | cons env rest ih =>
    rw [environPutLoop, List.find?_cons]
    cases h : environMatches value env with
    | true => simp
    | false => simpa using ih

/-- The entry that matches first is replaced or dropped. -/
theorem environPutLoop_append {before rest : List CString} {env : CString} (hb : ∀ e ∈ before, environMatches value e = false)
    (he : environMatches value env) :
    environPutLoop value (before ++ env :: rest) = some (before ++ if removesKey value then rest else value :: rest) := by
  induction before with
  | nil => simp [environPutLoop, he]
  | cons e before ih =>
    have hb' := hb e (by simp)
    rw [List.cons_append, environPutLoop, if_neg (by simp [hb']), ih fun e he => hb e (by simp [he])]
    rfl

/-- The two ways a put goes. -/
theorem pnEnvironPut_cases (environ : List CString) (value : CString) :
    (environ.find? (environMatches value) = none ∧
      pnEnvironPut environ value = if removesKey value then environ else environ ++ [value]) ∨
    ∃ before env rest, environ = before ++ env :: rest ∧ environ.find? (environMatches value) = some env ∧
      pnEnvironPut environ value = before ++ if removesKey value then rest else value :: rest := by
  cases hf : environ.find? (environMatches value) with
  | none =>
    left
    refine ⟨rfl, ?_⟩
    rw [pnEnvironPut, environPutLoop_eq_none_iff.mpr hf]
  | some env =>
    right
    obtain ⟨he, before, rest, rfl, hb⟩ := List.find?_eq_some_iff_append.mp hf
    refine ⟨before, env, rest, rfl, rfl, ?_⟩
    rw [pnEnvironPut, environPutLoop_append (fun e h => by simpa using hb e h) he]

/-! ## A put on a map -/

theorem withoutKey_append (l l' : List CString) : withoutKey value (l ++ l') = withoutKey value l ++ withoutKey value l' :=
  List.filter_append ..

theorem withoutKey_cons (h : SameKey value s) (l : List CString) : withoutKey value (s :: l) = withoutKey value l :=
  List.filter_cons_of_neg (by simpa using h)

theorem withoutKey_cons_of_not (h : ¬SameKey value s) (l : List CString) : withoutKey value (s :: l) = s :: withoutKey value l :=
  List.filter_cons_of_pos (by simpa using h)

theorem find?_sameKey_eq_none : environ.find? (fun env => SameKey value env) = none ↔ ∀ e ∈ environ, ¬SameKey value e := by
  simp

/-- With distinct keys, the entry with the key is the only one. -/
theorem DistinctKeys.not_sameKey {before rest : List CString} {env e : CString} (h : DistinctKeys (before ++ env :: rest))
    (hk : SameKey value env) (he : e ∈ before ∨ e ∈ rest) : ¬SameKey value e := by
  obtain ⟨-, hr, hc⟩ := List.pairwise_append.mp h
  intro hke
  rcases he with he | he
  · exact hc e he env (by simp) (hke.symm.trans hk)
  · exact (List.pairwise_cons.mp hr).1 e he (hk.symm.trans hke)

theorem DistinctKeys.find?_eq {before rest : List CString} {env : CString} (h : DistinctKeys (before ++ env :: rest))
    (hk : SameKey value env) : (before ++ env :: rest).find? (fun e => SameKey value e) = some env :=
  List.find?_eq_some_iff_append.mpr
    ⟨by simpa using hk, before, rest, rfl, fun e he => by simpa using h.not_sameKey hk (.inl he)⟩

/-- The filter of a list in which only the middle entry can have the key. -/
theorem filter_sameKey {before rest : List CString} (hb : ∀ e ∈ before, ¬SameKey value e) (hr : ∀ e ∈ rest, ¬SameKey value e)
    (l : List CString) : (before ++ (l ++ rest)).filter (fun e => SameKey value e) = l.filter fun e => SameKey value e := by
  have hb' : before.filter (fun e => SameKey value e) = [] := List.filter_eq_nil_iff.mpr (by simpa using hb)
  have hr' : rest.filter (fun e => SameKey value e) = [] := List.filter_eq_nil_iff.mpr (by simpa using hr)
  rw [List.filter_append, List.filter_append, hb', hr', List.nil_append, List.append_nil]

theorem sameKey_refl (s : CString) : SameKey s s := rfl

/-- **Step.** A put that finds its key works as on a map. -/
theorem FindsKey.putsEntry (hd : DistinctKeys environ) (h : FindsKey environ value) :
    PutsEntry environ value (pnEnvironPut environ value) := by
  unfold FindsKey at h
  rcases pnEnvironPut_cases environ value with ⟨hf, hput⟩ | ⟨before, env, rest, rfl, hf, hput⟩
  · have hno := find?_sameKey_eq_none.mp (h.symm.trans hf)
    have hnil : environ.filter (fun e => SameKey value e) = [] := List.filter_eq_nil_iff.mpr (by simpa using hno)
    cases hr : removesKey value with
    | true =>
      rw [hput, hr, if_pos rfl]
      exact ⟨rfl, by rw [hnil, hr]; rfl⟩
    | false =>
      rw [hput, hr, if_neg (by simp)]
      refine ⟨?_, ?_⟩
      · rw [withoutKey_append, withoutKey_cons (sameKey_refl value)]
        exact List.append_nil _
      · rw [List.filter_append, hnil, hr]
        simp [sameKey_refl]
  · have hk : SameKey value env := by simpa using List.find?_some (h.symm.trans hf)
    have hb : ∀ e ∈ before, ¬SameKey value e := fun e he => hd.not_sameKey hk (.inl he)
    have hr : ∀ e ∈ rest, ¬SameKey value e := fun e he => hd.not_sameKey hk (.inr he)
    cases hrem : removesKey value with
    | true =>
      rw [hput, hrem, if_pos rfl]
      refine ⟨?_, ?_⟩
      · rw [withoutKey_append, withoutKey_append, withoutKey_cons hk]
      · rw [hrem]
        exact filter_sameKey hb hr []
    | false =>
      rw [hput, hrem, if_neg (by simp)]
      refine ⟨?_, ?_⟩
      · rw [withoutKey_append, withoutKey_append, withoutKey_cons hk, withoutKey_cons (sameKey_refl value)]
      · rw [hrem]
        refine (filter_sameKey hb hr [value]).trans ?_
        simp [sameKey_refl]

/-- **Step.** A put that works as on a map found its key. -/
theorem PutsEntry.findsKey (hd : DistinctKeys environ) (h : PutsEntry environ value (pnEnvironPut environ value)) :
    FindsKey environ value := by
  unfold FindsKey
  rcases pnEnvironPut_cases environ value with ⟨hf, hput⟩ | ⟨before, env, rest, rfl, hf, hput⟩
  · rw [hf, eq_comm, find?_sameKey_eq_none]
    have honly := h.only
    have hnil : environ.filter (fun e => SameKey value e) = [] := by
      cases hr : removesKey value with
      | true => simpa [hput, hr] using honly
      | false =>
        rw [hput, hr, if_neg (by simp), if_neg (by simp), List.filter_append] at honly
        simpa [sameKey_refl] using honly
    intro e he
    simpa using List.filter_eq_nil_iff.mp hnil e he
  · rw [hf]
    have hk : SameKey value env := by
      by_contra hk
      -- the entry with the other key is gone
      have hothers := congrArg List.length h.others
      rw [hput, withoutKey_append, withoutKey_append, withoutKey_cons_of_not hk] at hothers
      cases hr : removesKey value with
      | true => simp [hr] at hothers
      | false => simp [hr, withoutKey_cons (sameKey_refl value)] at hothers
    exact (hd.find?_eq hk).symm

/-- A put that finds its key keeps the keys distinct. -/
theorem FindsKey.distinctKeys (hd : DistinctKeys environ) (h : FindsKey environ value) :
    DistinctKeys (pnEnvironPut environ value) := by
  unfold FindsKey at h
  rcases pnEnvironPut_cases environ value with ⟨hf, hput⟩ | ⟨before, env, rest, rfl, hf, hput⟩
  · have hno := find?_sameKey_eq_none.mp (h.symm.trans hf)
    rw [hput]
    split
    · exact hd
    · refine List.pairwise_append.mpr ⟨hd, List.pairwise_singleton .., fun s hs t ht => ?_⟩
      obtain rfl := List.mem_singleton.mp ht
      exact fun hst => hno s hs hst.symm
  · have hk : SameKey value env := by simpa using List.find?_some (h.symm.trans hf)
    rw [hput]
    obtain ⟨hb, hr, hc⟩ := List.pairwise_append.mp hd
    obtain ⟨-, hr⟩ := List.pairwise_cons.mp hr
    split
    · exact List.pairwise_append.mpr ⟨hb, hr, fun s hs t ht => hc s hs t (List.mem_cons_of_mem _ ht)⟩
    · refine List.pairwise_append.mpr ⟨hb, List.pairwise_cons.mpr ⟨fun e he => ?_, hr⟩, fun s hs t ht => ?_⟩
      · exact hd.not_sameKey hk (.inr he)
      · rcases List.mem_cons.mp ht with rfl | ht
        · exact fun hst => hd.not_sameKey hk (.inl hs) hst.symm
        · exact hc s hs t (List.mem_cons_of_mem _ ht)

/-! ## Runs -/

/-- The keys stay distinct over the puts of a list. -/
theorem DistinctKeys.putAll (hd : DistinctKeys environ) : ∀ values : List CString,
    (∀ before value rest, values = before ++ value :: rest → FindsKey (pnEnvironPutAll environ before) value) →
      DistinctKeys (pnEnvironPutAll environ values) := by
  intro values
  induction values generalizing environ with
  | nil => exact fun _ => hd
  | cons value values ih =>
    intro hS
    refine ih (FindsKey.distinctKeys hd (hS [] value values rfl)) fun before v rest heq => ?_
    have h := hS (value :: before) v rest (by rw [heq, List.cons_append])
    exact h

theorem EnvironRun.distinctKeys (h : EnvironRun FindsKey environ) : DistinctKeys environ := by
  induction h with
  | init => exact .nil
  | put value _ hS ih => exact hS.distinctKeys ih
  | putAll values _ hS ih => exact ih.putAll values hS

/-- **The environment is a map.** In every environment built by puts that found their key, the keys are distinct, and a further
put works as on a map iff it finds its key. -/
theorem pnEnvironPut_iff (h : EnvironRun FindsKey environ) :
    DistinctKeys environ ∧ ∀ value, PutsEntry environ value (pnEnvironPut environ value) ↔ FindsKey environ value :=
  ⟨h.distinctKeys, fun _ => ⟨PutsEntry.findsKey h.distinctKeys, FindsKey.putsEntry h.distinctKeys⟩⟩

/-- `foo=bar`, then `foo=override`, then `foo`. -/
theorem pnEnvironPut_iff_foo :
    pnEnvironPut [[102, 111, 111, 61, 98, 97, 114]] [70, 111, 111, 61, 120] = [[70, 111, 111, 61, 120]] ∧
      DistinctKeys [[102, 111, 111, 61, 98, 97, 114]] ∧
      ∀ value, PutsEntry [[102, 111, 111, 61, 98, 97, 114]] value (pnEnvironPut [[102, 111, 111, 61, 98, 97, 114]] value) ↔
        FindsKey [[102, 111, 111, 61, 98, 97, 114]] value :=
  ⟨by decide, pnEnvironPut_iff (.put [102, 111, 111, 61, 98, 97, 114] .init rfl)⟩

/-- `foobar=1`, then `foo=2`: the entry of `foobar` is lost. -/
theorem longer_key_replaced : EnvironRun (fun _ _ => True) [[102, 111, 111, 98, 97, 114, 61, 49]] ∧
    pnEnvironPut [[102, 111, 111, 98, 97, 114, 61, 49]] [102, 111, 111, 61, 50] = [[102, 111, 111, 61, 50]] ∧
    ¬PutsEntry [[102, 111, 111, 98, 97, 114, 61, 49]] [102, 111, 111, 61, 50]
      (pnEnvironPut [[102, 111, 111, 98, 97, 114, 61, 49]] [102, 111, 111, 61, 50]) := by
  refine ⟨.put [102, 111, 111, 98, 97, 114, 61, 49] .init trivial, by decide, fun h => ?_⟩
  have hothers := h.others
  revert hothers
  decide

end Pnacl
