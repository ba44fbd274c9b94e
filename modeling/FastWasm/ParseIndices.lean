import FastWasm.ParseStatus

/-!
# The index spaces after the parse

A type index is compared with `type_cnt` by `>`, so that it may be `type_cnt` itself, and the start
function is compared with the `func_cnt` of the moment, by `>` and without the imported functions
before it. The module that the parse leaves has its type and start indices in their index spaces,
and no start index of the index space is rejected, under exactly the conditions of
`parse_indices_iff`. They are conditions on the sections: the last one that sets types or functions,
the last one that has to do with the start function, and the start sections themselves.

Only the last section of a sort counts because a later one overwrites what an earlier one has set,
and the checks of a handler are made against what is there at the moment. What a section leaves is
told by its payload and the counts before it (`Fits`), and sections of other kinds leave it as it
was; so what holds behind the last section of a sort holds in the end (`AllFit.last`). For the start
sections the question is the other way round. A section list that can be parsed without them is
parsed with them when each of them is an index of the functions defined before it, and that is what
the source asks for; an index of an imported function is refused.
-/

namespace FastWasm

open Logged (Fallible Part)
open Logged.Fallible

variable {mem : Mem} {c c' c'' : Counts} {secs : List FwModuleSection}

/-! ## The indices

The claims about a module are made of the module, and the conditions are made of the sections. The
numbers that handlers compare with are in between. -/

namespace LoadedModule

/-- The type of every defined function is one of the first `type_cnt` entries of `type`. -/
def FuncsTyped (m : LoadedModule) : Prop :=
  ∀ f ∈ m.funcs, ∃ t ∈ (m.type.getD []).take m.typeCnt.toNat, f.functype = some t

/-- The number of functions, the imported ones included. -/
def funcBound (m : LoadedModule) : ℕ := (m.importCnt .func).toNat + m.funcCnt.toNat

/-- A start function that was recorded is a function. -/
def StartValid (m : LoadedModule) : Prop := m.startFunc ≠ 0 → m.startFunc.toNat < m.funcBound

end LoadedModule

/-- The sections that are no start sections, in their order. -/
def othersThanStart (secs : List FwModuleSection) : List FwModuleSection :=
  secs.filter (·.type ≠ 8)

/-- The indices are in range in the module that the parse leaves, and a module that can be parsed
without its start sections can be parsed with them when each of them is just an index of the index
space. The index space of functions is that of the imported and the defined functions together. -/
structure IndicesValid (mem : Mem) (secs : List FwModuleSection) (code : FwStr) : Prop where
  /-- the types of the functions -/
  funcs : ∀ m, fwModuleParse mem (.new secs code) = .ok (.ok, m) → m.FuncsTyped
  /-- the start function -/
  start : ∀ m, fwModuleParse mem (.new secs code) = .ok (.ok, m) → m.StartValid
  /-- start sections -/
  accepted : ∀ m, fwModuleParse mem (.new (othersThanStart secs) code) = .ok (.ok, m) →
    (∀ sec ∈ secs, sec.type = 8 → ∃ idx d, Runs (fwStrLebGetu32 mem) sec.data idx d ∧
      d.pos = d.last ∧ idx.toNat < m.funcBound) →
    ∃ m', fwModuleParse mem (.new secs code) = .ok (.ok, m')

/-! ## Sections one after the other

Sections fit one behind the other, each with the counts that those before it have left. A property
of the counts that only some sections set is looked at behind the last of these. -/

theorem Fits.unique {d : FwStr} {t : UInt8} (h : Fits mem c d t c') (h' : Fits mem c d t c'') :
    c' = c'' := by
  obtain ⟨m, rfl⟩ := c.exists_of
  obtain ⟨s, hs, rfl⟩ := @runs_of_fits _ _ ⟨t, d, false⟩ _ h
  obtain ⟨s', hs', rfl⟩ := @runs_of_fits _ _ ⟨t, d, false⟩ _ h'
  rw [(hs.unique hs').2]

theorem AllFit.unique (h : AllFit mem c secs c') (h' : AllFit mem c secs c'') : c' = c'' := by
  induction h with
  | nil => cases h'; rfl
  | cons head tail ih =>
    obtain _ | ⟨head', tail'⟩ := h'
    obtain rfl := head.unique head'
    exact ih tail'

/-- Types that fit are a count and that many types, which become those of the module. -/
theorem Fits.types_inv {d : FwStr} (h : Fits mem c d 1 c') :
    ∃ n p ts, U32At mem d.last n d.pos p ∧ ts.length = n.toNat ∧
      Stretch.Seq (TypeAt mem d.last) ts p d.last ∧
      c' = { c with typeCnt := n, types := if n ≠ 0 then some ts else c.types } := by
  generalize ht : (1 : UInt8) = t at h
  cases h with
  | types hn hlen hseq => exact ⟨_, _, _, hn, hlen, hseq, rfl⟩
  | _ => exact absurd ht (by decide)

/-- Imports that fit have been gone over twice, with room for those of the second pass. -/
theorem Fits.imports_inv {d : FwStr} (h : Fits mem c d 2 c') :
    (∃ n p q seen kinds, U32At mem d.last n d.pos p ∧ n ≠ 0 ∧ seen.length = n.toNat ∧
      Stretch.Seq (ImportSeenAt mem d.last) seen p q ∧
      c' = { c with counted := c.count seen, stored := c.store (c.count seen) kinds }) ∨
    U32At mem d.last 0 d.pos d.last ∧ c' = c := by
  generalize ht : (2 : UInt8) = t at h
  cases h with
  | imports hn h0 hlen hseq _ _ _ => exact .inl ⟨_, _, _, _, _, hn, h0, hlen, hseq, rfl⟩
  | noImports hn => exact .inr ⟨hn, rfl⟩
  | _ => exact absurd ht (by decide)

/-- Functions that fit have a type index and code each, and the indices are at most the number of
types. -/
theorem Fits.funcs_inv {d : FwStr} (h : Fits mem c d 3 c') :
    (∃ n p types idxs code, U32At mem d.last n d.pos p ∧ n ≠ 0 ∧ c.types = some types ∧
      idxs.length = n.toNat ∧ Stretch.Seq (U32At mem d.last) idxs p d.last ∧
      (∀ idx ∈ idxs, idx ≤ c.typeCnt) ∧
      c' = { c with funcCnt := n, funcs := idxs.map (types[·.toNat]?), code := code }) ∨
    U32At mem d.last 0 d.pos d.last ∧ ∃ code, c' = { c with code := code } := by
  generalize ht : (3 : UInt8) = t at h
  cases h with
  | funcs hn h0 _ htypes hlen hseq hle _ =>
    exact .inl ⟨_, _, _, _, _, hn, h0, htypes, hlen, hseq, hle, rfl⟩
  | noFuncs hn _ => exact .inr ⟨hn, _, rfl⟩
  | _ => exact absurd ht (by decide)

/-- A start function that fits is an index that is at most the number of defined functions. -/
theorem Fits.start_inv {d : FwStr} (h : Fits mem c d 8 c') :
    ∃ idx, U32At mem d.last idx d.pos d.last ∧ idx ≤ c.funcCnt ∧
      c' = { c with start := if idx ≠ 0 then idx else c.start } := by
  generalize ht : (8 : UInt8) = t at h
  cases h with
  | start hidx hle => exact ⟨_, hidx, hle, rfl⟩
  | _ => exact absurd ht (by decide)

/-- What every section preserves, all of them preserve. -/
theorem AllFit.induct {I : Counts → Prop}
    (step : ∀ c (sec : FwModuleSection) c', Fits mem c sec.data sec.type c' → I c → I c')
    (h : AllFit mem c secs c') (hc : I c) : I c' := by
  induction h with
  | nil => exact hc
  | cons head _ ih => exact ih (step _ _ _ head hc)

/-- What holds of the last section of some sort, and of the counts that it is behind. Where there is
no such section nothing is asked. -/
def AtLast (mem : Mem) (c : Counts) (secs : List FwModuleSection) (Sets : FwModuleSection → Prop)
    (P : Counts → FwModuleSection → Prop) : Prop :=
  ∀ pre sec post c', secs = pre ++ sec :: post → AllFit mem c pre c' → Sets sec →
    (∀ sec' ∈ post, ¬ Sets sec') → P c' sec

/-- A list with something of a sort has a last one. -/
theorem exists_last {α : Type} {p : α → Prop} {l : List α} (h : ∃ x ∈ l, p x) :
    ∃ pre x post, l = pre ++ x :: post ∧ p x ∧ ∀ y ∈ post, ¬ p y := by
  induction l with
  | nil => simp at h
  | cons a l ih =>
    by_cases hl : ∃ x ∈ l, p x
    · obtain ⟨pre, x, post, rfl, hx, hpost⟩ := ih hl
      exact ⟨a :: pre, x, post, rfl, hx, hpost⟩
    · have hnone : ∀ y ∈ l, ¬ p y := fun y hy hp => hl ⟨y, hy, hp⟩
      obtain ⟨x, hx, hp⟩ := h
      rcases List.mem_cons.mp hx with rfl | hx
      · exact ⟨[], x, l, rfl, hp, hnone⟩
      · exact absurd hp (hnone x hx)

section

variable {F I : Counts → Prop} {Sets : FwModuleSection → Prop}
  {P : Counts → FwModuleSection → Prop}

/-- What only some sections set, sections of other kinds leave as it was. -/
theorem AllFit.frame
    (frame : ∀ c (sec : FwModuleSection) c', Fits mem c sec.data sec.type c' → ¬ Sets sec →
      (F c' ↔ F c))
    (h : AllFit mem c secs c') (hsecs : ∀ sec ∈ secs, ¬ Sets sec) : F c' ↔ F c := by
  induction h with
  | nil => exact Iff.rfl
  | cons head _ ih =>
    obtain ⟨hsec, hrest⟩ := List.forall_mem_cons.mp hsecs
    exact (ih hrest).trans (frame _ _ _ head hsec)

/-- What only some sections set is right in the end when the last one of them has set it right. This
is an induction on the sections, from the front. -/
theorem AllFit.last
    (frame : ∀ c (sec : FwModuleSection) c', Fits mem c sec.data sec.type c' → ¬ Sets sec →
      (F c' ↔ F c))
    (step : ∀ c (sec : FwModuleSection) c', Fits mem c sec.data sec.type c' → I c → I c')
    (set : ∀ c (sec : FwModuleSection) c', I c → Fits mem c sec.data sec.type c' → Sets sec →
      (F c' ↔ P c sec))
    (h : AllFit mem c secs c') (hI : I c) (hF : F c) : F c' ↔ AtLast mem c secs Sets P := by
  -- every last section decides it
  have hlast : ∀ pre sec post c₁, secs = pre ++ sec :: post → AllFit mem c pre c₁ → Sets sec →
      (∀ sec' ∈ post, ¬ Sets sec') → (F c' ↔ P c₁ sec) := by
    rintro pre sec post c₁ rfl hpre hsec hpost
    obtain ⟨c₂, hpre', _ | ⟨head, tail⟩⟩ := allFit_append.mp h
    obtain rfl := hpre.unique hpre'
    exact (tail.frame frame hpost).trans (set _ _ _ (hpre.induct step hI) head hsec)
  constructor
  · exact fun hF' pre sec post c₁ hsplit hpre hsec hpost =>
      (hlast pre sec post c₁ hsplit hpre hsec hpost).mp hF'
  · intro hat
    by_cases hsets : ∃ sec ∈ secs, Sets sec
    · obtain ⟨pre, sec, post, rfl, hsec, hpost⟩ := exists_last hsets
      obtain ⟨c₁, hpre, -⟩ := allFit_append.mp h
      exact (hlast pre sec post c₁ rfl hpre hsec hpost).mpr
        (hat pre sec post c₁ rfl hpre hsec hpost)
    · exact (h.frame frame fun sec hmem hsec => hsets ⟨sec, hmem, hsec⟩).mpr hF

end

namespace Counts

/-- The types of the functions are among the types. -/
def FuncsTyped (c : Counts) : Prop :=
  ∀ t ∈ c.funcs, ∃ type ∈ (c.types.getD []).take c.typeCnt.toNat, t = some type

/-- The number of functions, the imported ones included. -/
def funcBound (c : Counts) : ℕ := (c.counted .func).toNat + c.funcCnt.toNat

/-- The start function is a function. -/
def StartValid (c : Counts) : Prop := c.start ≠ 0 → c.start.toNat < c.funcBound

/-- There are as many types as the count says, but for a count of 0. -/
def TypesCounted (c : Counts) : Prop := c.typeCnt ≠ 0 → (c.types.getD []).length = c.typeCnt.toNat

theorem funcsTyped_of {m : LoadedModule} : (Counts.of m).FuncsTyped ↔ m.FuncsTyped := by
  rw [FuncsTyped, LoadedModule.FuncsTyped, of, List.forall_mem_map]

end Counts

/-- The payload begins with a number other than 0. -/
def BeginsNonZero (mem : Mem) (d : FwStr) : Prop := ∃ n p, U32At mem d.last n d.pos p ∧ n ≠ 0

theorem not_beginsNonZero {d : FwStr} {p : ℕ} (h : U32At mem d.last 0 d.pos p) :
    ¬ BeginsNonZero mem d := by
  rintro ⟨n, q, hn, h0⟩
  exact h0 (covers_getu32.unique hn h).1

/-! ## The functions

A function has the type that was at its index when its section was handled. Only a later section of
types or of functions changes whether that is so. -/

/-- A section that sets types or functions. -/
def SetsFuncTypes (mem : Mem) (sec : FwModuleSection) : Prop :=
  sec.type = 1 ∨ sec.type = 3 ∧ BeginsNonZero mem sec.data

/-- A type section has the types of all functions before it. -/
def TypesKeep (mem : Mem) (c : Counts) (d : FwStr) : Prop :=
  ∃ n p ts, U32At mem d.last n d.pos p ∧ ts.length = n.toNat ∧
    Stretch.Seq (TypeAt mem d.last) ts p d.last ∧ ∀ t ∈ c.funcs, ∃ type ∈ ts, t = some type

/-- A function section has no type index that is the number of types. -/
def TypeidxsBelow (mem : Mem) (c : Counts) (d : FwStr) : Prop :=
  ∃ n p idxs, U32At mem d.last n d.pos p ∧ idxs.length = n.toNat ∧
    Stretch.Seq (U32At mem d.last) idxs p d.last ∧ c.typeCnt ∉ idxs

/-- A section that sets types or functions leaves every function a type. -/
def KeepsFuncTypes (mem : Mem) (c : Counts) (sec : FwModuleSection) : Prop :=
  (sec.type = 1 → TypesKeep mem c sec.data) ∧ (sec.type = 3 → TypeidxsBelow mem c sec.data)

section

variable {sec : FwModuleSection}

theorem typesCounted_of_fits (h : Fits mem c sec.data sec.type c') (hc : c.TypesCounted) :
    c'.TypesCounted := by
  obtain ⟨t, d, free⟩ := sec
  cases h with
  | types _ hlen _ =>
    intro h0
    simp only [if_pos h0]
    exact hlen
  | _ => exact hc

theorem funcsTyped_frame (h : Fits mem c sec.data sec.type c') (hsec : ¬ SetsFuncTypes mem sec) :
    c'.FuncsTyped ↔ c.FuncsTyped := by
  obtain ⟨t, d, free⟩ := sec
  cases h with
  | types _ _ _ => exact absurd (.inl rfl) hsec
  | funcs hn h0 _ _ _ _ _ _ => exact absurd (.inr ⟨rfl, _, _, hn, h0⟩) hsec
  | _ => exact Iff.rfl

/-- An index that is at most the number of types is one of a type exactly when it is below it. -/
theorem exists_type_iff {types : List FwModuleType} {cnt idx : UInt32}
    (hcnt : cnt ≠ 0 → types.length = cnt.toNat) (hle : idx ≤ cnt) :
    (∃ t ∈ types.take cnt.toNat, types[idx.toNat]? = some t) ↔ idx < cnt := by
  by_cases h0 : cnt = 0
  · subst h0
    simp
  · rw [← hcnt h0, List.take_length, UInt32.lt_iff_toNat_lt, ← hcnt h0]
    refine ⟨?_, ?_⟩
    · rintro ⟨t, -, ht⟩
      exact (List.getElem?_eq_some_iff.mp ht).1
    · intro hlt
      exact ⟨types[idx.toNat], List.getElem_mem hlt, List.getElem?_eq_getElem hlt⟩

theorem typesKeep_iff {d : FwStr} (h : Fits mem c d 1 c') : c'.FuncsTyped ↔ TypesKeep mem c d := by
  obtain ⟨n, p, ts, hn, hlen, hseq, rfl⟩ := h.types_inv
  have htake : ((if n ≠ 0 then some ts else c.types).getD []).take n.toNat = ts := by
    split_ifs with h0
    · rw [Option.getD_some, ← hlen, List.take_length]
    · obtain rfl := not_not.mp h0
      obtain rfl := List.length_eq_zero_iff.mp hlen
      exact List.take_zero
  rw [Counts.FuncsTyped, htake]
  constructor
  · exact fun hall => ⟨n, p, ts, hn, hlen, hseq, hall⟩
  · rintro ⟨n', p', ts', hn', hlen', hseq', hall⟩
    obtain ⟨rfl, rfl⟩ := covers_getu32.unique hn hn'
    obtain rfl := covers_type.seq_unique hseq hseq' (hlen.trans hlen'.symm)
    exact hall

theorem typeidxsBelow_iff {d : FwStr} (hc : c.TypesCounted) (h : Fits mem c d 3 c')
    (h0 : BeginsNonZero mem d) : c'.FuncsTyped ↔ TypeidxsBelow mem c d := by
  obtain ⟨n, p, types, idxs, code, hn, -, htypes, hlen, hseq, hle, rfl⟩ | ⟨hn, -⟩ := h.funcs_inv
  · have hcnt : c.typeCnt ≠ 0 → types.length = c.typeCnt.toNat := by
      rwa [Counts.TypesCounted, htypes] at hc
    have hall : (∀ t ∈ idxs.map (types[·.toNat]?), ∃ type ∈ types.take c.typeCnt.toNat,
        t = some type) ↔ c.typeCnt ∉ idxs := by
      rw [List.forall_mem_map]
      constructor
      · intro hall hmem
        exact UInt32.lt_irrefl _ ((exists_type_iff hcnt (hle _ hmem)).mp (hall _ hmem))
      · intro hmem idx hidx
        exact (exists_type_iff hcnt (hle idx hidx)).mpr
          (UInt32.lt_of_le_of_ne (hle idx hidx) (ne_of_mem_of_not_mem hidx hmem))
    simp only [Counts.FuncsTyped, htypes, Option.getD_some]
    rw [hall]
    constructor
    · exact fun hmem => ⟨n, p, idxs, hn, hlen, hseq, hmem⟩
    · rintro ⟨n', p', idxs', hn', hlen', hseq', hmem⟩
      obtain ⟨rfl, rfl⟩ := covers_getu32.unique hn hn'
      obtain rfl := covers_getu32.seq_unique hseq hseq' (hlen.trans hlen'.symm)
      exact hmem
  · exact absurd h0 (not_beginsNonZero hn)

theorem funcsTyped_set (hc : c.TypesCounted) (h : Fits mem c sec.data sec.type c')
    (hsec : SetsFuncTypes mem sec) : c'.FuncsTyped ↔ KeepsFuncTypes mem c sec := by
  rw [KeepsFuncTypes]
  obtain hsec | ⟨hsec, h0⟩ := hsec
  · rw [hsec] at h ⊢
    rw [typesKeep_iff h]
    simp
  · rw [hsec] at h ⊢
    rw [typeidxsBelow_iff hc h h0]
    simp

/-! ## The start function

The index was compared when its section was handled, with the functions that were there. Sections
behind it may set another number of functions, or count imports as well. -/

/-- A section that sets the start function or the number of functions. -/
def SetsStart (mem : Mem) (sec : FwModuleSection) : Prop :=
  (sec.type = 2 ∨ sec.type = 3 ∨ sec.type = 8) ∧ BeginsNonZero mem sec.data

/-- The functions that an import section counts make room for the start function. -/
def ImportsKeepStart (mem : Mem) (c : Counts) (d : FwStr) : Prop :=
  ∃ n p q seen, U32At mem d.last n d.pos p ∧ seen.length = n.toNat ∧
    Stretch.Seq (ImportSeenAt mem d.last) seen p q ∧
    (c.start ≠ 0 → c.start.toNat < (c.count seen .func).toNat + c.funcCnt.toNat)

/-- The functions that a function section counts make room for the start function. -/
def FuncsKeepStart (mem : Mem) (c : Counts) (d : FwStr) : Prop :=
  ∃ n p, U32At mem d.last n d.pos p ∧
    (c.start ≠ 0 → c.start.toNat < (c.counted .func).toNat + n.toNat)

/-- A start section does not have the number of defined functions for its index when no function is
imported. -/
def StartBelow (mem : Mem) (c : Counts) (d : FwStr) : Prop :=
  ∃ idx p, U32At mem d.last idx d.pos p ∧ ¬ (idx = c.funcCnt ∧ c.counted .func = 0)

/-- A section that has to do with the start function leaves it a function. -/
def KeepsStart (mem : Mem) (c : Counts) (sec : FwModuleSection) : Prop :=
  (sec.type = 2 → ImportsKeepStart mem c sec.data) ∧
    (sec.type = 3 → FuncsKeepStart mem c sec.data) ∧ (sec.type = 8 → StartBelow mem c sec.data)

theorem startValid_frame (h : Fits mem c sec.data sec.type c') (hsec : ¬ SetsStart mem sec) :
    c'.StartValid ↔ c.StartValid := by
  obtain ⟨t, d, free⟩ := sec
  cases h with
  | imports hn h0 _ _ _ _ _ => exact absurd ⟨.inl rfl, _, _, hn, h0⟩ hsec
  | funcs hn h0 _ _ _ _ _ _ => exact absurd ⟨.inr (.inl rfl), _, _, hn, h0⟩ hsec
  | @start idx hidx _ =>
    have h0 : ¬ idx ≠ 0 := fun h0 => hsec ⟨.inr (.inr rfl), _, _, hidx, h0⟩
    simp only [if_neg h0]
  | _ => exact Iff.rfl

theorem importsKeepStart_iff {d : FwStr} (h : Fits mem c d 2 c') (h0 : BeginsNonZero mem d) :
    c'.StartValid ↔ ImportsKeepStart mem c d := by
  obtain ⟨n, p, q, seen, kinds, hn, -, hlen, hseq, rfl⟩ | ⟨hn, -⟩ := h.imports_inv
  · constructor
    · exact fun hvalid => ⟨n, p, q, seen, hn, hlen, hseq, hvalid⟩
    · rintro ⟨n', p', q', seen', hn', hlen', hseq', hvalid⟩
      obtain ⟨rfl, rfl⟩ := covers_getu32.unique hn hn'
      obtain rfl := covers_importSeen.seq_unique hseq hseq' (hlen.trans hlen'.symm)
      exact hvalid
  · exact absurd h0 (not_beginsNonZero hn)

theorem funcsKeepStart_iff {d : FwStr} (h : Fits mem c d 3 c') (h0 : BeginsNonZero mem d) :
    c'.StartValid ↔ FuncsKeepStart mem c d := by
  obtain ⟨n, p, types, idxs, code, hn, -, -, -, -, -, rfl⟩ | ⟨hn, -⟩ := h.funcs_inv
  · constructor
    · exact fun hvalid => ⟨n, p, hn, hvalid⟩
    · rintro ⟨n', p', hn', hvalid⟩
      obtain ⟨rfl, -⟩ := covers_getu32.unique hn hn'
      exact hvalid
  · exact absurd h0 (not_beginsNonZero hn)

theorem startBelow_iff {d : FwStr} (h : Fits mem c d 8 c') (h0 : BeginsNonZero mem d) :
    c'.StartValid ↔ StartBelow mem c d := by
  obtain ⟨idx, hidx, hle, rfl⟩ := h.start_inv
  obtain ⟨n, p, hn, h0⟩ := h0
  obtain ⟨rfl, -⟩ := covers_getu32.unique hidx hn
  -- an index that is at most the number of defined functions is one of a function
  have hlt : idx.toNat < c.funcBound ↔ ¬ (idx = c.funcCnt ∧ c.counted .func = 0) := by
    rw [Counts.funcBound, ← UInt32.toNat_inj, ← UInt32.toNat_inj, UInt32.toNat_zero]
    have := UInt32.le_iff_toNat_le.mp hle
    omega
  simp only [Counts.StartValid, if_pos h0]
  constructor
  · exact fun hvalid => ⟨idx, d.last, hidx, hlt.mp (hvalid h0)⟩
  · rintro ⟨idx', p', hidx', hbelow⟩ -
    obtain ⟨rfl, -⟩ := covers_getu32.unique hidx hidx'
    exact hlt.mpr hbelow

theorem startValid_set (h : Fits mem c sec.data sec.type c') (hsec : SetsStart mem sec) :
    c'.StartValid ↔ KeepsStart mem c sec := by
  rw [KeepsStart]
  obtain ⟨hsec | hsec | hsec, h0⟩ := hsec
  · rw [hsec] at h ⊢
    rw [importsKeepStart_iff h h0]
    simp
  · rw [hsec] at h ⊢
    rw [funcsKeepStart_iff h h0]
    simp
  · rw [hsec] at h ⊢
    rw [startBelow_iff h h0]
    simp

end

/-! ## Start sections

A start section changes the start function and nothing else, so the sections behind it fit with it
as without it. -/

/-- No section but a start section has to do with the start function. -/
theorem Fits.withStart {sec : FwModuleSection} (h : Fits mem c sec.data sec.type c')
    (hsec : sec.type ≠ 8) (start : UInt32) :
    Fits mem { c with start := start } sec.data sec.type { c' with start := start } := by
  obtain ⟨t, d, free⟩ := sec
  cases h with
  | custom => exact .custom
  | types hn hlen hseq => exact .types hn hlen hseq
  | imports hn h0 hseen hskim hlen hseq hroom => exact .imports hn h0 hseen hskim hlen hseq hroom
  | noImports hn => exact .noImports hn
  | funcs hn h0 hcode htypes hlen hseq hle hcodes =>
    exact .funcs hn h0 hcode htypes hlen hseq hle hcodes
  | noFuncs hn hcode => exact .noFuncs hn hcode
  | tables hseq => exact .tables hseq
  | memories hn => exact .memories hn
  | globals hseq => exact .globals hseq
  | exports hseq => exact .exports hseq
  | start => exact absurd rfl hsec
  | elems hseq => exact .elems hseq
  | code => exact .code
  | datas hseq => exact .datas hseq

theorem othersThanStart_cons {sec : FwModuleSection} : othersThanStart (sec :: secs) =
    if sec.type ≠ 8 then sec :: othersThanStart secs else othersThanStart secs := by
  simp [othersThanStart, List.filter_cons]

/-- Sections that fit still do without the start sections. -/
theorem AllFit.others (h : AllFit mem c secs c') (start : UInt32) :
    AllFit mem { c with start := start } (othersThanStart secs) { c' with start := start } := by
  induction h with
  | nil c => exact .nil _
  | @cons c c₁ c' sec rest head _ ih =>
    rw [othersThanStart_cons]
    split_ifs with hsec
    · exact .cons (head.withStart hsec start) ih
    · rw [not_not.mp hsec] at head
      obtain ⟨idx, -, -, rfl⟩ := head.start_inv
      exact ih

/-- An index that is all of a payload. -/
def IndexOnly (mem : Mem) (d : FwStr) (idx : UInt32) : Prop := U32At mem d.last idx d.pos d.last

/-- No start section has an index above the number of functions that are defined before it. -/
def StartsDefined (mem : Mem) (c : Counts) (secs : List FwModuleSection) : Prop :=
  ∀ pre sec post c' idx, secs = pre ++ sec :: post → sec.type = 8 →
    AllFit mem c (othersThanStart pre) c' → IndexOnly mem sec.data idx → idx ≤ c'.funcCnt

/-- Sections that fit without the start sections do with them when these come late enough: a
start section counts nothing, so those behind it meet the same counts, and its index is at most the
number of functions that are known when it is handled. -/
theorem allFit_of_others (h : AllFit mem c (othersThanStart secs) c') (start : UInt32)
    (hread : ∀ sec ∈ secs, sec.type = 8 → ∃ idx, IndexOnly mem sec.data idx)
    (hstarts : StartsDefined mem c secs) : ∃ start',
      AllFit mem { c with start := start } secs { c' with start := start' } := by
  induction secs generalizing c start with
  | nil =>
    cases h
    exact ⟨start, .nil _⟩
  | cons sec rest ih =>
    obtain ⟨hsec', hrest⟩ := List.forall_mem_cons.mp hread
    by_cases hsec : sec.type = 8
    · obtain ⟨idx, hidx⟩ := hsec' hsec
      rw [othersThanStart_cons, if_neg (not_not.mpr hsec)] at h
      obtain ⟨start', htail⟩ := ih h (if idx ≠ 0 then idx else start) hrest
        fun pre sec' post c₁ idx' hsplit hsec' hpre =>
          hstarts (sec :: pre) sec' post c₁ idx' (congrArg _ hsplit) hsec' (by
            rwa [othersThanStart_cons, if_neg (not_not.mpr hsec)])
      refine ⟨start', .cons ?_ htail⟩
      rw [hsec]
      exact .start hidx (hstarts [] sec rest c idx rfl hsec (.nil c) hidx)
    · rw [othersThanStart_cons, if_pos hsec] at h
      obtain _ | ⟨head, tail⟩ := h
      obtain ⟨start', htail⟩ := ih tail start hrest
        fun pre sec' post c₁ idx' hsplit hsec' hpre =>
          hstarts (sec :: pre) sec' post c₁ idx' (congrArg _ hsplit) hsec' (by
            rw [othersThanStart_cons, if_pos hsec]
            exact .cons head hpre)
      exact ⟨start', .cons (head.withStart hsec start) htail⟩

/-- With the start sections they fit exactly when these come late enough. -/
theorem allFit_iff_startsDefined {code : FwStr}
    (h : AllFit mem (.init code) (othersThanStart secs) c')
    (hread : ∀ sec ∈ secs, sec.type = 8 → ∃ idx, IndexOnly mem sec.data idx) :
    (∃ c, AllFit mem (.init code) secs c) ↔ StartsDefined mem (.init code) secs := by
  constructor
  · rintro ⟨c, hfit⟩ pre sec post c₁ idx rfl hsec hpre hidx
    obtain ⟨c₂, hpre', _ | ⟨head, -⟩⟩ := allFit_append.mp hfit
    -- the counts before the section are the same, up to the start function
    obtain rfl := (hpre'.others 0).unique hpre
    rw [hsec] at head
    obtain ⟨idx', hidx', hle, -⟩ := head.start_inv
    obtain ⟨rfl, -⟩ := covers_getu32.unique hidx hidx'
    exact hle
  · intro hstarts
    obtain ⟨start', hfit⟩ := allFit_of_others h 0 hread hstarts
    exact ⟨_, hfit⟩

/-! ## The parse

From sections that fit to the module, and back. -/

/-- The sections leave the indices right. When all of them fit, the last one that sets types or
functions leaves every function a type, and the last one that has to do with the start function
leaves it a function. When they fit without the start sections and each of these is an index of the
index space, no start section has an index above the number of functions defined before it. -/
structure IndicesFit (mem : Mem) (secs : List FwModuleSection) (code : FwStr) : Prop where
  /-- the types of the functions -/
  funcs : (∃ c, AllFit mem (.init code) secs c) →
    AtLast mem (.init code) secs (SetsFuncTypes mem) (KeepsFuncTypes mem)
  /-- the start function -/
  start : (∃ c, AllFit mem (.init code) secs c) →
    AtLast mem (.init code) secs (SetsStart mem) (KeepsStart mem)
  /-- start sections -/
  accepted : ∀ c, AllFit mem (.init code) (othersThanStart secs) c →
    (∀ sec ∈ secs, sec.type = 8 → ∃ idx, IndexOnly mem sec.data idx ∧ idx.toNat < c.funcBound) →
    StartsDefined mem (.init code) secs

/-- What is left behind when the parse returns `FW_OK` is what fits. -/
theorem parse_ok_iff {code : FwStr} {P : Counts → Prop} :
    (∀ m, fwModuleParse mem (.new secs code) = .ok (.ok, m) → P (.of m)) ↔
      ∀ c, AllFit mem (.init code) secs c → P c := by
  constructor
  · intro h c hfit
    obtain ⟨m, hm, rfl⟩ := (handled_iff_fits (m := .new secs code)).mpr hfit
    obtain ⟨secs', hparse⟩ := @parse_of_handled _ (.new secs code) _ hm
    have := h _ hparse
    exact this
  · intro h m hparse
    obtain ⟨m', hm', heq⟩ := handled_of_parse hparse
    have := h _ (handled_iff_fits.mp ⟨m', hm', rfl⟩)
    rw [heq]
    exact this

/-- The parse returns `FW_OK` exactly when the sections fit. -/
theorem exists_parse_iff {code : FwStr} :
    (∃ m, fwModuleParse mem (.new secs code) = .ok (.ok, m)) ↔
      ∃ c, AllFit mem (.init code) secs c := by
  have h := @parse_ok_iff mem secs code fun _ => False
  rw [← not_iff_not]
  simpa using h

theorem funcsTyped_iff {code : FwStr} (h : AllFit mem (.init code) secs c) :
    c.FuncsTyped ↔ AtLast mem (.init code) secs (SetsFuncTypes mem) (KeepsFuncTypes mem) :=
  h.last (fun _ _ _ => funcsTyped_frame) (fun _ _ _ => typesCounted_of_fits)
    (fun _ _ _ => funcsTyped_set) (fun h => absurd rfl h) (by simp [Counts.FuncsTyped, Counts.init])

theorem startValid_iff {code : FwStr} (h : AllFit mem (.init code) secs c) :
    c.StartValid ↔ AtLast mem (.init code) secs (SetsStart mem) (KeepsStart mem) :=
  h.last (I := fun _ => True) (fun _ _ _ => startValid_frame) (fun _ _ _ _ _ => trivial)
    (fun _ _ _ _ => startValid_set) trivial fun h => absurd rfl h

/-- An index that is all of a payload is read to its end. -/
theorem indexOnly_iff {d : FwStr} {idx : UInt32} : IndexOnly mem d idx ↔
    ∃ d', Runs (fwStrLebGetu32 mem) d idx d' ∧ d'.pos = d'.last := by
  simp only [covers_getu32.runs_iff, IndexOnly]
  constructor
  · exact fun h => ⟨⟨d.last, d.last⟩, ⟨rfl, h⟩, rfl⟩
  · rintro ⟨d', ⟨hlast, h⟩, hend⟩
    rwa [hend, hlast] at h

theorem accepted_iff {code : FwStr} :
    (∀ m, fwModuleParse mem (.new (othersThanStart secs) code) = .ok (.ok, m) →
      (∀ sec ∈ secs, sec.type = 8 → ∃ idx d, Runs (fwStrLebGetu32 mem) sec.data idx d ∧
        d.pos = d.last ∧ idx.toNat < m.funcBound) →
      ∃ m', fwModuleParse mem (.new secs code) = .ok (.ok, m')) ↔
    ∀ c, AllFit mem (.init code) (othersThanStart secs) c →
      (∀ sec ∈ secs, sec.type = 8 → ∃ idx, IndexOnly mem sec.data idx ∧ idx.toNat < c.funcBound) →
      StartsDefined mem (.init code) secs := by
  have hbound (m : LoadedModule) : (∀ sec ∈ secs, sec.type = 8 → ∃ idx d,
      Runs (fwStrLebGetu32 mem) sec.data idx d ∧ d.pos = d.last ∧ idx.toNat < m.funcBound) ↔
        ∀ sec ∈ secs, sec.type = 8 → ∃ idx, IndexOnly mem sec.data idx ∧
          idx.toNat < (Counts.of m).funcBound := by
    simp only [indexOnly_iff, ← exists_and_right, and_assoc]
    exact Iff.rfl
  simp only [hbound, exists_parse_iff]
  rw [parse_ok_iff (P := fun c => (∀ sec ∈ secs, sec.type = 8 → ∃ idx,
    IndexOnly mem sec.data idx ∧ idx.toNat < c.funcBound) → ∃ c, AllFit mem (.init code) secs c)]
  refine forall₃_congr fun c hfit hread => allFit_iff_startsDefined hfit fun sec hmem hsec => ?_
  obtain ⟨idx, hidx, -⟩ := hread sec hmem hsec
  exact ⟨idx, hidx⟩

/-- The index spaces after the parse: the type indices and the start index are in range and no start
index in range is rejected if and only if the sections leave the indices right. The sections are
any, in any order and any number of each kind, and the code section may be any of them. -/
theorem parse_indices_iff (mem : Mem) (secs : List FwModuleSection) (code : FwStr) :
    IndicesValid mem secs code ↔ IndicesFit mem secs code := by
  have hall {P : Counts → Prop} {Q : Prop}
      (h : ∀ c, AllFit mem (.init code) secs c → (P c ↔ Q)) :
      (∀ m, fwModuleParse mem (.new secs code) = .ok (.ok, m) → P (.of m)) ↔
        ((∃ c, AllFit mem (.init code) secs c) → Q) :=
    parse_ok_iff.trans ((forall₂_congr h).trans exists_imp.symm)
  have hfuncs := (forall₂_congr fun m _ => Counts.funcsTyped_of.symm).trans
    (hall fun c hfit => funcsTyped_iff hfit)
  have hstart := hall fun c hfit => startValid_iff hfit
  constructor
  · exact fun h => ⟨hfuncs.mp h.funcs, hstart.mp h.start, accepted_iff.mp h.accepted⟩
  · exact fun h => ⟨hfuncs.mpr h.funcs, hstart.mpr h.start, accepted_iff.mpr h.accepted⟩

/-- One type, and one function whose type index is 1. -/
def pastTypes : List UInt8 :=
  wasmHeader ++ [0x01, 0x04, 0x01, 0x60, 0x00, 0x00, 0x03, 0x02, 0x01, 0x01,
    0x0a, 0x04, 0x01, 0x02, 0x00, 0x0b]

/-- What `_fw_module_load` returns for it, two sections and the code. -/
def pastTypesLoaded : LoadedModule :=
  .new [⟨1, ⟨10, 14⟩, false⟩, ⟨3, ⟨16, 18⟩, false⟩, ⟨10, ⟨20, 24⟩, false⟩] ⟨20, 24⟩

/-- What the handlers make of it. -/
def pastTypesParsed : LoadedModule :=
  { pastTypesLoaded with
    typeCnt := 1, type := some [⟨0, 0, []⟩], codeRef := ⟨24, 24⟩, funcCnt := 1,
    funcs := [⟨[], 0, none, ⟨23, 24⟩⟩] }

/-- The parse returns `FW_OK`, and the function has no type. -/
theorem pastTypes_not_valid : ∃ str', Runs (_fwModuleLoad (memOf pastTypes)) ⟨0, 24⟩ pastTypesLoaded
    str' ∧ ¬ IndicesValid (memOf pastTypes) pastTypesLoaded.sections pastTypesLoaded.codeRef := by
  refine ⟨⟨24, 24⟩, rfl, fun h => ?_⟩
  have htype : Runs (fwSectionHandler (memOf pastTypes) 1)
      ⟨pastTypesLoaded, ⟨1, ⟨10, 14⟩, false⟩⟩ ⟨⟩
      ⟨{ pastTypesLoaded with typeCnt := 1, type := some [⟨0, 0, []⟩] },
        ⟨1, ⟨14, 14⟩, false⟩⟩ := rfl
  have hfunc : Runs (fwSectionHandler (memOf pastTypes) 3)
      ⟨{ pastTypesLoaded with typeCnt := 1, type := some [⟨0, 0, []⟩] },
        ⟨3, ⟨16, 18⟩, false⟩⟩ ⟨⟩ ⟨pastTypesParsed, ⟨3, ⟨18, 18⟩, true⟩⟩ := rfl
  have hcode : Runs (fwSectionHandler (memOf pastTypes) 10)
      ⟨pastTypesParsed, ⟨10, ⟨20, 24⟩, false⟩⟩ ⟨⟩
      ⟨pastTypesParsed, ⟨10, ⟨20, 24⟩, false⟩⟩ := rfl
  have hrun : Handled (memOf pastTypes) pastTypesLoaded pastTypesLoaded.sections pastTypesParsed :=
    .cons htype (.cons hfunc (.cons hcode (.nil _)))
  obtain ⟨secs, hparse⟩ := parse_of_handled hrun
  obtain ⟨t, -, ht⟩ := h.funcs _ hparse ⟨[], 0, none, ⟨23, 24⟩⟩ (List.mem_singleton_self _)
  cases ht

end FastWasm
