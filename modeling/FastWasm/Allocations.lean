import FastWasm.Destructors

/-!
# What the handlers allocate

The heap behind the sections of a module, section by section. Every array is the one that the
last section with entries for it has allocated; what sections before it have allocated for the same
array is still there, and nothing points to it any more. When no section comes behind one that it
overwrites, the module reaches every block that was allocated for it.

The handlers are looked at through what one of them does to the arrays when it returns `FW_OK`
(`ArraysDone`): which arrays it has allocated, how many entries they have, and that it leaves the
others alone. That is one lemma for each way of filling an array, and one for all handlers
(`arraysDone_of_runs`). The heap is then built up section by section (`Built`), from nothing but
that fact. The imports are the odd ones: four arrays of one section, which has a destructor for each
of its entries and not for each array.
-/

namespace FastWasm

open Logged (Fallible)
open Logged.Fallible
open Ownership

variable {mem : Mem} {m : LoadedModule} {sec : FwModuleSection} {s : LoadState} {arr : FwArray}
  {i : ℕ} {heap : FwHeap}

/-! ## Arrays and sections

Nine sections hold the entries of arrays. The section of the imports fills four of them, one for
each kind, and the others fill one each. Of these the types are special, because no destructor is
set for them and a count of 0 is stored as well. -/

/-- The type of the sections that hold the entries of an array. The four arrays of imports share
one. -/
def FwArray.sectionType : FwArray → UInt8
  | .type => 1
  | .imports _ => 2
  | .funcs => 3
  | .tables => 4
  | .memories => 5
  | .globals => 6
  | .exports => 7
  | .elems => 9
  | .datas => 11

/-- The arrays that the destructors of sections free: all but the types. -/
def FwArray.ofSections : List FwArray := FwImportKind.all.map .imports ++
  [.funcs, .tables, .memories, .globals, .exports, .elems, .datas]

/-- The arrays, in the order of the ids of their sections. -/
def FwArray.all : List FwArray := .type :: FwArray.ofSections

theorem FwArray.mem_all (arr : FwArray) : arr ∈ FwArray.all := by
  rcases arr with _ | ⟨_ | _ | _ | _⟩ | _ | _ | _ | _ | _ | _ | _ <;> decide

theorem FwArray.nodup_all : FwArray.all.Nodup := by decide

/-- Only the imports share a section. Any other section type tells which array is meant. -/
theorem FwArray.sectionType_inj {arr arr' : FwArray} (h2 : arr.sectionType ≠ 2)
    (h : arr'.sectionType = arr.sectionType) : arr' = arr := by
  cases arr <;> cases arr' <;>
    first | rfl | exact absurd rfl h2 | (simp [FwArray.sectionType] at h)

/-- The payload begins with a number other than 0: the section has entries, or says so. -/
def NonZero (mem : Mem) (d : FwStr) : Prop := ∃ n d₁, Runs (fwStrLebGetu32 mem) d n d₁ ∧ n ≠ 0

theorem not_nonZero {d d' : FwStr} {n : UInt32} (h : Runs (fwStrLebGetu32 mem) d n d')
    (h0 : ¬ n ≠ 0) : ¬ NonZero mem d := by
  rintro ⟨n', d'', h', h0'⟩
  obtain ⟨rfl, -⟩ := h.unique h'
  exact h0 h0'

/-- A section that holds entries of an array. For an import section that is asked for each kind. -/
def Sets (mem : Mem) (arr : FwArray) (sec : FwModuleSection) : Prop :=
  sec.type = arr.sectionType ∧ NonZero mem sec.data

/-- A section behind which what was allocated for an array before is not reached: it holds entries
of the array, or sets `type_cnt` to 0. A type section without entries sets the count and keeps the
pointer. -/
def Resets (mem : Mem) (arr : FwArray) (sec : FwModuleSection) : Prop :=
  sec.type = arr.sectionType ∧ (NonZero mem sec.data ∨ arr = .type)

/-- A block of an array that is lost when the pointer to it is: the array, or what the first entry
of its first allocation points to. -/
def FwArray.mark (i : ℕ) : FwArray → FwAddr
  | .type => .cell .type i 0 0
  | .imports kind => .cell (.imports kind) i 0 1
  | arr => .array arr i

/-! ## One handler

A handler leaves an array alone, or it has allocated a new one with at least one entry. Which of the
two it is can be read from the payload, and what the new array owns from the module that the handler
leaves. -/

/-- What a handler that returned `FW_OK` has done to the arrays: those that its section holds
entries of are new, and the others are as before. -/
structure ArraysDone (mem : Mem) (m : LoadedModule) (sec : FwModuleSection) (s : LoadState) :
    Prop where
  /-- the type of the section stays -/
  type : s.sec.type = sec.type
  /-- the destructor is set, except for the types -/
  free : s.sec.free = true ↔ ∃ arr : FwArray, arr ≠ .type ∧ Sets mem arr sec
  /-- other arrays stay -/
  same : ∀ arr, ¬ Resets mem arr sec →
    arr.count s.module = arr.count m ∧ ∀ i, fwEntryCells s.module i arr = fwEntryCells m i arr
  /-- these were allocated -/
  arrays : ∀ arr, arr ∈ fwSectionArrays s ↔ Sets mem arr sec ∧ arr.count s.module ≠ 0
  /-- of each array once -/
  nodup : (fwSectionArrays s).Nodup
  /-- the entries are there -/
  counted : ∀ arr, arr.sectionType ≠ 2 → Sets mem arr sec → arr.count s.module ≠ 0
  /-- one of them is in one of the arrays -/
  marked : ∀ arr, Sets mem arr sec → ∃ arr' : FwArray, arr'.sectionType = arr.sectionType ∧
    arr'.count s.module ≠ 0 ∧ ∀ i, arr'.mark i ∈ (fwArrayBlock s.module i arr').addrs
  /-- a type section of no entries leaves none -/
  emptied : sec.type = 1 → ¬ NonZero mem sec.data → s.module.typeCnt = 0

/-- A handler that holds no entries and leaves the counts alone. It sets no array and marks
its section with no `free`, as the handlers of custom sections, of the memories, of the start and of
the code do. -/
theorem ArraysDone.idle (htype : s.sec.type = sec.type) (hfree : s.sec.free = false)
    (h1 : sec.type ≠ 1) (hsets : ∀ arr : FwArray, ¬ Sets mem arr sec)
    (hsame : ∀ arr : FwArray,
      arr.count s.module = arr.count m ∧ ∀ i, fwEntryCells s.module i arr = fwEntryCells m i arr) :
    ArraysDone mem m sec s where
  type := htype
  free := iff_of_false (by simp [hfree]) fun ⟨arr, _, h⟩ => hsets arr h
  same arr _ := hsame arr
  arrays arr := by
    have hnil : fwSectionArrays s = [] := by
      unfold fwSectionArrays
      split
      · exact absurd (htype.symm.trans ‹_›) h1
      all_goals simp [hfree]
    rw [hnil]
    exact iff_of_false List.not_mem_nil fun h => hsets arr h.1
  nodup := by
    unfold fwSectionArrays
    split
    · exact absurd (htype.symm.trans ‹_›) h1
    all_goals simp [hfree]
  counted arr _ h := absurd h (hsets arr)
  marked arr h := absurd h (hsets arr)
  emptied h := absurd h h1

theorem array_mem_addrs (m : LoadedModule) (i : ℕ) (arr : FwArray) :
    FwAddr.array arr i ∈ (fwArrayBlock m i arr).addrs := List.mem_cons_self

/-- What an entry points to is a block of the array, as long as the entry is below the count. -/
theorem cell_mem_addrs {j : ℕ} {a : FwAddr} (hj : j < arr.count m)
    (ha : .ptr a ∈ fwEntryCells m i arr j) : a ∈ (fwArrayBlock m i arr).addrs :=
  List.mem_cons_of_mem _ <| mem_targets.mpr
    ⟨_, List.mem_map.mpr ⟨j, List.mem_range.mpr hj, rfl⟩, ha⟩

/-- The arrays that are the only one of their section, with a destructor that is set for it. -/
def FwArray.Sole (arr : FwArray) : Prop :=
  arr.sectionType ≠ 1 ∧ arr.sectionType ≠ 2 ∧ arr.sectionType ≠ 5

instance (arr : FwArray) : Decidable arr.Sole :=
  inferInstanceAs (Decidable (arr.sectionType ≠ 1 ∧ arr.sectionType ≠ 2 ∧ arr.sectionType ≠ 5))

theorem FwArray.Sole.sectionArrays (h : arr.Sole) (hsec : s.sec.type = arr.sectionType)
    (hfree : s.sec.free = true) : fwSectionArrays s = [arr] := by
  obtain ⟨h1, h2, h5⟩ := h
  cases arr <;> simp only [fwSectionArrays, hsec, hfree] <;>
    first | rfl | exact absurd rfl h1 | exact absurd rfl h2 | exact absurd rfl h5

/-- A handler that has allocated such an array, with at least one entry in it. The section is marked
with `free`, the array is the only one of its type, and the others have their entries and counts
unchanged. -/
theorem ArraysDone.of_array (htype : s.sec.type = sec.type) (hsec : sec.type = arr.sectionType)
    (hfree : s.sec.free = true) (harr : arr.Sole) (hnz : NonZero mem sec.data)
    (hcount : arr.count s.module ≠ 0) (hmark : ∀ i, arr.mark i = .array arr i)
    (hsame : ∀ arr' : FwArray, arr' ≠ arr → arr'.count s.module = arr'.count m ∧
      ∀ i, fwEntryCells s.module i arr' = fwEntryCells m i arr') :
    ArraysDone mem m sec s := by
  have h1 : arr ≠ .type := fun h => harr.1 (congrArg FwArray.sectionType h)
  have harrays := harr.sectionArrays (htype.trans hsec) hfree
  have hself (arr' : FwArray) (h : sec.type = arr'.sectionType) : arr' = arr :=
    FwArray.sectionType_inj harr.2.1 (h.symm.trans hsec)
  refine ⟨htype, iff_of_true hfree ⟨arr, h1, hsec, hnz⟩, fun arr' h => hsame arr' ?_,
    fun arr' => ?_, ?_, fun arr' _ h => ?_, fun arr' h => ⟨arr, ?_, hcount, fun i => ?_⟩,
    fun h => ?_⟩
  · rintro rfl
    exact h ⟨hsec, .inl hnz⟩
  · rw [harrays, List.mem_singleton]
    refine ⟨?_, ?_⟩
    · rintro rfl
      exact ⟨⟨hsec, hnz⟩, hcount⟩
    · exact fun h => hself _ h.1.1
  · rw [harrays]
    exact List.nodup_singleton _
  · rw [hself _ h.1]
    exact hcount
  · rw [hself _ h.1]
  · rw [hmark]
    exact array_mem_addrs _ _ _
  · exact absurd (hself .type h).symm h1

theorem arraysDone_types (hsec : sec.type = 1) (hfree : sec.free = false)
    (h : Runs (fwModuleSectionType mem) ⟨m, sec⟩ ⟨⟩ s) : ArraysDone mem m sec s := by
  have hself {arr : FwArray} (h : sec.type = arr.sectionType) : arr = .type :=
    FwArray.sectionType_inj (by decide) (h.symm.trans hsec)
  have hsame {n : UInt32} {types : Option (List FwModuleType)} (arr : FwArray)
      (hne : ¬ Resets mem arr sec) :
      arr.count { m with typeCnt := n, type := types } = arr.count m ∧ ∀ i, fwEntryCells
        { m with typeCnt := n, type := types } i arr = fwEntryCells m i arr := by
    cases arr <;> first | exact ⟨rfl, fun _ => rfl⟩ | exact absurd ⟨hsec, .inr rfl⟩ hne
  have hnofree : ¬ ∃ arr : FwArray, arr ≠ .type ∧ Sets mem arr sec := fun ⟨_, hne, h, _⟩ =>
    hne (hself h)
  obtain ⟨n, d, hn, ⟨h0, ts, hlen, d', -, -, rfl⟩ | ⟨h0, -, rfl⟩⟩ := runs_sectionType.mp h
  · have hnz : NonZero mem sec.data := ⟨n, d, hn, h0⟩
    have hn0 : n.toNat ≠ 0 := fun h => h0 (UInt32.toNat_inj.mp h)
    have harrays : fwSectionArrays ⟨{ m with typeCnt := n, type := some ts },
        { sec with data := d' }⟩ = [.type] := by
      simp only [fwSectionArrays, hsec]
      exact if_pos h0
    refine ⟨rfl, iff_of_false (by simp [hfree]) hnofree, hsame, fun arr => ?_, ?_,
      fun arr _ h => ?_, fun arr h => ⟨.type, ?_, hn0, fun i => ?_⟩, fun _ h => absurd hnz h⟩
    · rw [harrays, List.mem_singleton]
      refine ⟨?_, ?_⟩
      · rintro rfl
        exact ⟨⟨hsec, hnz⟩, hn0⟩
      · exact fun h => hself h.1.1
    · rw [harrays]
      exact List.nodup_singleton _
    · rw [hself h.1]
      exact hn0
    · rw [hself h.1]
    · exact cell_mem_addrs (Nat.pos_of_ne_zero hn0) List.mem_cons_self
  · have hnz := not_nonZero hn h0
    have harrays : fwSectionArrays ⟨{ m with typeCnt := n }, { sec with data := d }⟩ = [] := by
      simp only [fwSectionArrays, hsec]
      exact if_neg h0
    refine ⟨rfl, iff_of_false (by simp [hfree]) hnofree, hsame, fun arr => ?_, ?_,
      fun arr _ h => absurd h.2 hnz, fun arr h => absurd h.2 hnz, fun _ _ => not_not.mp h0⟩
    · rw [harrays]
      exact iff_of_false List.not_mem_nil fun h => hnz h.1.2
    · rw [harrays]
      exact List.nodup_nil

/-- There is room for the first of the imports of a kind. -/
theorem room_count {imps : List LoadedImport} {imp : LoadedImport} (hroom : m.Room imps)
    (himp : imp ∈ imps) : (m.importCnt imp.desc.kind).toNat ≠ 0 ∧
      0 < ((m.addImports imps).imports imp.desc.kind).length := by
  have hmem : imp ∈ importsOf imp.desc.kind imps := List.mem_filter.mpr ⟨himp, by simp⟩
  have hpos := List.length_pos_of_mem hmem
  have hle := hroom imp himp
  rw [LoadedModule.addImports, List.length_append]
  omega

theorem arraysDone_imports (hsec : sec.type = 2) (hfree : sec.free = false)
    (h : Runs (fwModuleSectionImport mem) ⟨m, sec⟩ ⟨⟩ s) : ArraysDone mem m sec s := by
  obtain ⟨n, d, hn, ⟨h0, kinds, -, d₁, -, imps, hlen, d₂, -, hroom, -, rfl⟩ | ⟨h0, -, rfl⟩⟩ :=
    runs_sectionImport.mp h
  · have hnz : NonZero mem sec.data := ⟨n, d, hn, h0⟩
    have hself {arr : FwArray} (h : sec.type = arr.sectionType) : ∃ kind, arr = .imports kind := by
      cases arr <;> first | exact ⟨_, rfl⟩ | exact absurd (h.symm.trans hsec) (by decide)
    generalize hm' : (m.countImports kinds).allocImports.addImports imps = m'
    have hsame (arr : FwArray) (hne : ¬ Resets mem arr sec) : arr.count m' = arr.count m ∧
        ∀ i, fwEntryCells m' i arr = fwEntryCells m i arr := by
      subst hm'
      cases arr <;> first | exact ⟨rfl, fun _ => rfl⟩ | exact absurd ⟨hsec, .inl hnz⟩ hne
    have harrays : fwSectionArrays ⟨m', ⟨sec.type, d₂, true⟩⟩ =
        (FwImportKind.all.filter fun kind => m'.importCnt kind ≠ 0).map .imports := by
      simp only [fwSectionArrays, hsec]
      rfl
    -- the first of the imports is of some kind
    obtain ⟨imp, _, rfl⟩ := List.exists_cons_of_length_pos (l := imps) (by
      rw [hlen]
      exact Nat.pos_of_ne_zero fun h => h0 (UInt32.toNat_inj.mp h))
    obtain ⟨hcount, hfilled⟩ := room_count hroom List.mem_cons_self
    rw [hm'] at hfilled
    have hcount' : (m'.importCnt imp.desc.kind).toNat ≠ 0 := by
      rw [← hm']
      exact hcount
    refine ⟨rfl, iff_of_true rfl ⟨.imports .func, by decide, hsec, hnz⟩, hsame, fun arr => ?_, ?_,
      fun arr h2 h => absurd (h.1.symm.trans hsec) h2, fun arr h => ?_,
      fun h => absurd (h.symm.trans hsec) (by decide)⟩
    · rw [harrays, List.mem_map]
      refine ⟨?_, ?_⟩
      · rintro ⟨kind, hkind, rfl⟩
        refine ⟨⟨hsec, hnz⟩, fun h => ?_⟩
        have := (List.mem_filter.mp hkind).2
        exact of_decide_eq_true this (UInt32.toNat_inj.mp h)
      · rintro ⟨⟨harr, -⟩, hne⟩
        obtain ⟨kind, rfl⟩ := hself harr
        refine ⟨kind, List.mem_filter.mpr ⟨by cases kind <;> decide, decide_eq_true ?_⟩, rfl⟩
        exact fun h => hne (congrArg UInt32.toNat h)
    · rw [harrays]
      exact (List.Nodup.filter _ (by decide)).map fun _ _ h => FwArray.imports.inj h
    · obtain ⟨kind, rfl⟩ := hself h.1
      refine ⟨.imports imp.desc.kind, rfl, hcount', fun i => ?_⟩
      refine cell_mem_addrs (Nat.pos_of_ne_zero hcount') ?_
      rw [fwEntryCells, if_pos hfilled]
      exact List.mem_append_right _ List.mem_cons_self
  · exact .idle rfl hfree (by rw [hsec]; decide) (fun _ hs => not_nonZero hn h0 hs.2) fun _ =>
      ⟨rfl, fun _ => rfl⟩

theorem arraysDone_funcs (hsec : sec.type = 3) (hfree : sec.free = false)
    (h : Runs (fwModuleSectionFunc mem) ⟨m, sec⟩ ⟨⟩ s) : ArraysDone mem m sec s := by
  obtain ⟨n, d, c, hn, -, ⟨h0, types, -, idxs, d', -, -, -, entries, c', -, -, -, rfl⟩ |
    ⟨h0, -, rfl⟩⟩ := runs_sectionFunc.mp h
  · refine @ArraysDone.of_array mem m sec _ .funcs rfl hsec rfl (by decide) ⟨n, d, hn, h0⟩
      (fun h => h0 (UInt32.toNat_inj.mp h)) (fun _ => rfl) fun arr hne => ?_
    cases arr <;> first | exact absurd rfl hne | exact ⟨rfl, fun _ => rfl⟩
  · refine .idle rfl hfree (by rw [hsec]; decide) (fun _ hs => not_nonZero hn h0 hs.2) fun arr => ?_
    cases arr <;> exact ⟨rfl, fun _ => rfl⟩

/-- A section that is one vector, whatever its entries are. -/
theorem arraysDone_vec {α : Type} {cnt : Logged.Part LoadedModule UInt32}
    {items : Logged.Part LoadedModule (List α)} {entry : Parse α}
    (hsec : sec.type = arr.sectionType) (hfree : sec.free = false) (harr : arr.Sole)
    (hcount : ∀ (n : UInt32) (es : List α), arr.count (items.put es (cnt.put n m)) = n.toNat)
    (hmark : ∀ i, arr.mark i = .array arr i)
    (hsame : ∀ (n : UInt32) (es : List α) (arr' : FwArray), arr' ≠ arr →
      arr'.count (items.put es (cnt.put n m)) = arr'.count m ∧
        ∀ i, fwEntryCells (items.put es (cnt.put n m)) i arr' = fwEntryCells m i arr')
    (h : Runs (fwVecSection mem cnt items entry) ⟨m, sec⟩ ⟨⟩ s) : ArraysDone mem m sec s := by
  obtain ⟨n, d, hn, ⟨h0, es, -, d', -, -, rfl⟩ | ⟨h0, -, rfl⟩⟩ := runs_vecSection.mp h
  · refine .of_array rfl hsec rfl harr ⟨n, d, hn, h0⟩ ?_ hmark (hsame n es)
    rw [hcount]
    exact fun h => h0 (UInt32.toNat_inj.mp h)
  · refine .idle rfl hfree ?_ (fun _ hs => not_nonZero hn h0 hs.2) fun _ => ⟨rfl, fun _ => rfl⟩
    rw [hsec]
    exact harr.1

/-- Every handler that returns `FW_OK` has done to the arrays what its section says, by one case for
each type. The types, the imports and the functions have lemmas of their own, the vectors share one.
-/
theorem arraysDone_of_runs (hfree : sec.free = false)
    (h : Runs (fwSectionHandler mem sec.type) ⟨m, sec⟩ ⟨⟩ s) : ArraysDone mem m sec s := by
  obtain ⟨t, d, free⟩ := sec
  have hnone {t : UInt8} (ht : t = 0 ∨ t = 8 ∨ t = 10) (arr : FwArray) :
      ¬ Sets mem arr ⟨t, d, free⟩ := by
    rintro ⟨h, -⟩
    rcases ht with rfl | rfl | rfl <;> cases arr <;> exact absurd h (by simp [FwArray.sectionType])
  rcases sectionType_cases (type_lt_of_runs h) with
    rfl | rfl | rfl | rfl | rfl | rfl | rfl | rfl | rfl | rfl | rfl | rfl
  · obtain rfl := (runs_pure.mp h).2
    exact .idle rfl hfree (show (0 : UInt8) ≠ 1 by decide) (hnone (by decide)) fun _ =>
      ⟨rfl, fun _ => rfl⟩
  · exact arraysDone_types rfl hfree h
  · exact arraysDone_imports rfl hfree h
  · exact arraysDone_funcs rfl hfree h
  · refine @arraysDone_vec mem m _ s .tables _ _ _ _ rfl hfree (by decide) (fun _ _ => rfl)
      (fun _ => rfl) (fun n es arr hne => ?_) h
    cases arr <;> first | exact absurd rfl hne | exact ⟨rfl, fun _ => rfl⟩
  · obtain ⟨d₁, hn, -, rfl⟩ := runs_sectionMemory.mp h
    exact .idle rfl hfree (show (5 : UInt8) ≠ 1 by decide)
      (fun _ hs => not_nonZero hn (by decide) hs.2) fun _ =>
      ⟨rfl, fun _ => rfl⟩
  · refine @arraysDone_vec mem m _ s .globals _ _ _ _ rfl hfree (by decide) (fun _ _ => rfl)
      (fun _ => rfl) (fun n es arr hne => ?_) h
    cases arr <;> first | exact absurd rfl hne | exact ⟨rfl, fun _ => rfl⟩
  · refine @arraysDone_vec mem m _ s .exports _ _ _ _ rfl hfree (by decide) (fun _ _ => rfl)
      (fun _ => rfl) (fun n es arr hne => ?_) h
    cases arr <;> first | exact absurd rfl hne | exact ⟨rfl, fun _ => rfl⟩
  · obtain ⟨idx, d₁, -, -, -, rfl⟩ := runs_sectionStart.mp h
    refine .idle rfl hfree (show (8 : UInt8) ≠ 1 by decide) (hnone (by decide)) fun arr => ?_
    by_cases h0 : idx = 0
    · rw [if_neg (not_not.mpr h0)]
      exact ⟨rfl, fun _ => rfl⟩
    · rw [if_pos h0]
      cases arr <;> exact ⟨rfl, fun _ => rfl⟩
  · refine @arraysDone_vec mem m _ s .elems _ _ _ _ rfl hfree (by decide) (fun _ _ => rfl)
      (fun _ => rfl) (fun n es arr hne => ?_) h
    cases arr <;> first | exact absurd rfl hne | exact ⟨rfl, fun _ => rfl⟩
  · obtain rfl := (runs_pure.mp h).2
    exact .idle rfl hfree (show (10 : UInt8) ≠ 1 by decide) (hnone (by decide)) fun _ =>
      ⟨rfl, fun _ => rfl⟩
  · refine @arraysDone_vec mem m _ s .datas _ _ _ _ rfl hfree (by decide) (fun _ _ => rfl)
      (fun _ => rfl) (fun n es arr hne => ?_) h
    cases arr <;> first | exact absurd rfl hne | exact ⟨rfl, fun _ => rfl⟩

/-! ## The heap behind a handler

The heap is a function of the handlers' states, and so are the pointers in the module. Blocks are
never given back while a file is parsed. -/

theorem foldl_alloc (arrs : List FwArray) (heap : FwHeap) :
    (∀ arr, (arrs.foldl (FwHeap.alloc m i) heap).array arr =
        if arr ∈ arrs then some (fwArrayBlock m i arr) else heap.array arr) ∧
      (arrs.foldl (FwHeap.alloc m i) heap).filedata = heap.filedata ∧
      (arrs.foldl (FwHeap.alloc m i) heap).allocs =
        heap.allocs ++ arrs.flatMap fun arr => (fwArrayBlock m i arr).addrs := by
  induction arrs generalizing heap with
  | nil => simp
  | cons arr' arrs ih =>
    obtain ⟨harray, hdata, hallocs⟩ := ih (heap.alloc m i arr')
    rw [List.foldl_cons, hdata, hallocs, List.flatMap_cons, ← List.append_assoc]
    refine ⟨fun arr => ?_, rfl, rfl⟩
    rw [harray]
    by_cases hmem : arr ∈ arrs
    · rw [if_pos hmem, if_pos (List.mem_cons_of_mem _ hmem)]
    · rw [if_neg hmem, FwHeap.alloc]
      by_cases harr : arr = arr'
      · subst harr
        rw [if_pos List.mem_cons_self]
        exact Function.update_self ..
      · rw [if_neg (by simp [harr, hmem])]
        exact Function.update_of_ne harr ..

/-- The blocks that the module reaches through its arrays. -/
def FwHeap.reach (heap : FwHeap) : List FwAddr :=
  FwArray.all.flatMap fun arr => owned (heap.array arr)

/-- No section comes behind one that it overwrites. A second section of a type is fine as long as
one of the two has no entries. -/
def Once (mem : Mem) (secs : List FwModuleSection) : Prop :=
  ∀ arr : FwArray, secs.Pairwise fun sec sec' => Sets mem arr sec → ¬ Resets mem arr sec'

/-- The heap behind the handlers of these sections, with the module that they leave. The module is
needed because it says how many entries of an array are there. -/
structure Built (mem : Mem) (start : List FwAddr) (secs : List FwModuleSection) (m : LoadedModule)
    (heap : FwHeap) : Prop where
  /-- the bytes of the file are still there -/
  filedata : heap.filedata = .ptr .filedata
  /-- every array was allocated by a handler -/
  shape : ∀ arr b, heap.array arr = some b → ∃ i m₀, b = fwArrayBlock m₀ i arr
  /-- an array with entries is the one of the last section that holds entries of it -/
  last : ∀ arr, arr.count m ≠ 0 → ∃ i sec, secs[i]? = some sec ∧ Sets mem arr sec ∧
    (∀ j sec', i < j → secs[j]? = some sec' → ¬ Resets mem arr sec') ∧
    heap.array arr = some (fwArrayBlock m i arr)
  /-- without such a section there is none -/
  unset : ∀ arr, (∀ sec ∈ secs, ¬ Sets mem arr sec) → heap.array arr = none ∧ arr.count m = 0
  /-- with one there are entries -/
  counted : ∀ arr : FwArray, arr.sectionType ≠ 1 → arr.sectionType ≠ 2 →
    ∀ sec ∈ secs, Sets mem arr sec → arr.count m ≠ 0
  /-- every section that holds entries has allocated an array -/
  marked : ∀ arr i sec, secs[i]? = some sec → Sets mem arr sec →
    ∃ arr' : FwArray, arr'.sectionType = arr.sectionType ∧ arr'.mark i ∈ heap.allocs
  /-- what is reached was allocated -/
  allocated : ∀ arr b, heap.array arr = some b → b.addrs ⊆ heap.allocs
  /-- an array with no entries is not there, when nothing was overwritten -/
  absent : Once mem secs → ∀ arr, arr.count m = 0 → heap.array arr = none
  /-- then everything is reached -/
  whole : Once mem secs → heap.allocs.Perm (start ++ heap.reach)

theorem built_new (loaded : LoadedModule) (n : ℕ) (h : ∀ arr : FwArray, arr.count loaded = 0) :
    Built mem (FwHeap.new n).allocs [] loaded (.new n) where
  filedata := rfl
  shape _ _ h := by cases h
  last arr hne := absurd (h arr) hne
  unset arr _ := ⟨rfl, h arr⟩
  counted _ _ _ _ hsec := absurd hsec List.not_mem_nil
  marked _ _ _ hsec := by simp at hsec
  allocated _ _ h := by cases h
  absent _ _ _ := rfl
  whole _ := by
    have hnil : (FwHeap.new n).reach = [] := by
      simp [FwHeap.reach, FwHeap.new, owned]
    rw [hnil, List.append_nil]

/-- A filter that drops only what contributes nothing. -/
theorem flatMap_filter {α β : Type} {p : α → Bool} {f : α → List β} {l : List α}
    (h : ∀ a ∈ l, p a = false → f a = []) : (l.filter p).flatMap f = l.flatMap f := by
  induction l with
  | nil => rfl
  | cons a l ih =>
    obtain ⟨ha, hl⟩ := List.forall_mem_cons.mp h
    rw [List.filter_cons, List.flatMap_cons, ← ih hl]
    by_cases hp : p a = true
    · rw [if_pos hp, List.flatMap_cons]
    · rw [if_neg hp, ha (by simpa using hp), List.nil_append]

/-- New arrays where there were none are reached beside what was reached before. So nothing is lost
when no array is allocated twice. -/
theorem reach_perm {heap' : FwHeap} {arrs : List FwArray} {new : FwArray → Block FwAddr}
    (hnodup : arrs.Nodup) (hnone : ∀ arr ∈ arrs, heap.array arr = none)
    (harray : ∀ arr, heap'.array arr = if arr ∈ arrs then some (new arr) else heap.array arr) :
    heap'.reach.Perm (heap.reach ++ arrs.flatMap fun arr => (new arr).addrs) := by
  have hnew : (FwArray.all.filter (· ∈ arrs)).Perm arrs :=
    (List.perm_ext_iff_of_nodup (FwArray.nodup_all.filter _) hnodup).mpr fun arr => by
      simp [FwArray.mem_all]
  have hold : (FwArray.all.filter fun arr => !decide (arr ∈ arrs)).flatMap
      (fun arr => owned (heap.array arr)) = heap.reach :=
    flatMap_filter fun arr _ h => by
      rw [hnone arr (by simpa using h)]
      rfl
  have hsplit := (List.filter_append_perm (· ∈ arrs) FwArray.all).flatMap_right
    fun arr => owned (heap'.array arr)
  refine hsplit.symm.trans ?_
  rw [List.flatMap_append]
  refine List.perm_append_comm.trans (List.Perm.append (List.Perm.of_eq ?_) ?_)
  · rw [← hold]
    refine List.flatMap_congr fun arr h => ?_
    rw [harray, if_neg (by simpa using (List.mem_filter.mp h).2)]
  · refine List.Perm.trans (List.Perm.of_eq ?_) (hnew.flatMap_right _)
    refine List.flatMap_congr fun arr h => ?_
    rw [harray, if_pos (by simpa using (List.mem_filter.mp h).2)]
    rfl

theorem Sets.resets (h : Sets mem arr sec) : Resets mem arr sec := ⟨h.1, .inl h.2⟩

theorem Once.left {secs secs' : List FwModuleSection} (h : Once mem (secs ++ secs')) :
    Once mem secs := fun arr => (List.pairwise_append.mp (h arr)).1

/-! ### One more handler

The sections that were handled, and one more. Each part of the invariant is a lemma, since they need
different things of the handler: what is there was allocated, is that of the last section with
entries, has the size that the count says, and, when nothing is overwritten, is all there is. -/

section Step

variable {start : List FwAddr} {secs : List FwModuleSection} {arr : FwArray}

/-- An array that is in the heap behind a handler was allocated by it or before. -/
theorem sectionHeap_array (n : ℕ) (arr : FwArray) :
    (fwSectionHeap n s heap).array arr =
      if arr ∈ fwSectionArrays s then some (fwArrayBlock s.module n arr) else heap.array arr :=
  (foldl_alloc (fwSectionArrays s) heap).1 arr

theorem sectionHeap_allocs (n : ℕ) :
    (fwSectionHeap n s heap).allocs = heap.allocs ++
      (fwSectionArrays s).flatMap fun arr => (fwArrayBlock s.module n arr).addrs :=
  (foldl_alloc (fwSectionArrays s) heap).2.2

/-- Nothing that was allocated is forgotten, whether a pointer leads to it still or not. -/
theorem allocs_subset_sectionHeap (n : ℕ) : heap.allocs ⊆ (fwSectionHeap n s heap).allocs := by
  rw [sectionHeap_allocs]
  exact List.subset_append_left _ _

/-- The last section is the one of this handler, or one of those before. -/
theorem getElem?_snoc {i : ℕ} {sec' : FwModuleSection} (h : (secs ++ [sec])[i]? = some sec') :
    secs[i]? = some sec' ∨ (i = secs.length ∧ sec' = sec) := by
  rcases Nat.lt_or_ge i secs.length with hlt | hge
  · rw [List.getElem?_append_left hlt] at h
    exact .inl h
  · obtain ⟨hlt, -⟩ := List.getElem?_eq_some_iff.mp h
    rw [List.length_append, List.length_singleton] at hlt
    obtain rfl : i = secs.length := Nat.le_antisymm (Nat.le_of_lt_succ hlt) hge
    rw [List.getElem?_concat_length] at h
    exact .inr ⟨rfl, (Option.some.inj h).symm⟩

/-- What was not allocated anew is as before: the array and everything that its entries point to. -/
theorem ArraysDone.kept (hdone : ArraysDone mem m sec s) (hnot : ¬ Sets mem arr sec) (n : ℕ) :
    (fwSectionHeap n s heap).array arr = heap.array arr := by
  rw [sectionHeap_array, if_neg fun hmem => hnot ((hdone.arrays arr).mp hmem).1]

/-- An array that is reset and not set has no entries. -/
theorem ArraysDone.empty (hdone : ArraysDone mem m sec s) (hreset : Resets mem arr sec)
    (hnot : ¬ Sets mem arr sec) : arr.count s.module = 0 := by
  obtain ⟨hsec, hnz | rfl⟩ := hreset
  · exact absurd ⟨hsec, hnz⟩ hnot
  · exact congrArg UInt32.toNat (hdone.emptied hsec fun hnz => hnot ⟨hsec, hnz⟩)

namespace Built

variable (h : Built mem start secs m heap) (hdone : ArraysDone mem m sec s)

include h

/-- An array that is overwritten by nothing was not there: no section before this one has held
entries of it. -/
theorem fresh (honce : Once mem (secs ++ [sec])) (hreset : Resets mem arr sec) :
    heap.array arr = none ∧ arr.count m = 0 := by
  refine h.unset arr fun sec' hsec' hsets => ?_
  exact (List.pairwise_append.mp (honce arr)).2.2 sec' hsec' sec (List.mem_singleton_self _)
    hsets hreset

theorem step_shape {b : Block FwAddr}
    (hb : (fwSectionHeap secs.length s heap).array arr = some b) :
    ∃ i m₀, b = fwArrayBlock m₀ i arr := by
  rw [sectionHeap_array] at hb
  by_cases hmem : arr ∈ fwSectionArrays s
  · rw [if_pos hmem] at hb
    exact ⟨_, _, (Option.some.inj hb).symm⟩
  · rw [if_neg hmem] at hb
    exact h.shape arr b hb

theorem step_allocated {b : Block FwAddr}
    (hb : (fwSectionHeap secs.length s heap).array arr = some b) :
    b.addrs ⊆ (fwSectionHeap secs.length s heap).allocs := by
  rw [sectionHeap_array] at hb
  by_cases hmem : arr ∈ fwSectionArrays s
  · rw [if_pos hmem] at hb
    obtain rfl := Option.some.inj hb
    rw [sectionHeap_allocs]
    exact fun a ha => List.mem_append_right _ (List.mem_flatMap.mpr ⟨arr, hmem, ha⟩)
  · rw [if_neg hmem] at hb
    exact fun a ha => allocs_subset_sectionHeap _ (h.allocated arr b hb ha)

include hdone

/-- An array with entries is that of the last section that holds some: this one or one before. -/
theorem step_last (hne : arr.count s.module ≠ 0) :
    ∃ i sec₀, (secs ++ [sec])[i]? = some sec₀ ∧ Sets mem arr sec₀ ∧
      (∀ j sec', i < j → (secs ++ [sec])[j]? = some sec' → ¬ Resets mem arr sec') ∧
      (fwSectionHeap secs.length s heap).array arr = some (fwArrayBlock s.module i arr) := by
  by_cases hsets : Sets mem arr sec
  · refine ⟨secs.length, sec, List.getElem?_concat_length, hsets, fun j sec' hj hsec' => ?_, ?_⟩
    · rw [List.getElem?_eq_none (by rw [List.length_append]; exact hj)] at hsec'
      cases hsec'
    · rw [sectionHeap_array, if_pos ((hdone.arrays arr).mpr ⟨hsets, hne⟩)]
  · have hreset : ¬ Resets mem arr sec := fun hreset => hne (hdone.empty hreset hsets)
    obtain ⟨hcount, hcells⟩ := hdone.same arr hreset
    rw [hcount] at hne
    obtain ⟨i, sec₀, hi, hsets₀, hlast, hb⟩ := h.last arr hne
    obtain ⟨hlt, -⟩ := List.getElem?_eq_some_iff.mp hi
    refine ⟨i, sec₀, by rw [List.getElem?_append_left hlt, hi], hsets₀, fun j sec' hj hsec' => ?_,
      ?_⟩
    · rcases getElem?_snoc hsec' with hsec' | ⟨-, rfl⟩
      · exact hlast j sec' hj hsec'
      · exact hreset
    · rw [hdone.kept hsets, hb, fwArrayBlock, fwArrayBlock, hcount, hcells]

theorem step_unset (hnot : ∀ sec' ∈ secs ++ [sec], ¬ Sets mem arr sec') :
    (fwSectionHeap secs.length s heap).array arr = none ∧ arr.count s.module = 0 := by
  have hnot' := hnot sec (List.mem_append_right _ (List.mem_singleton_self _))
  obtain ⟨hnone, h0⟩ := h.unset arr fun sec' hsec' => hnot sec' (List.mem_append_left _ hsec')
  refine ⟨by rw [hdone.kept hnot', hnone], ?_⟩
  by_cases hreset : Resets mem arr sec
  · exact hdone.empty hreset hnot'
  · rw [(hdone.same arr hreset).1, h0]

theorem step_counted (h1 : arr.sectionType ≠ 1) (h2 : arr.sectionType ≠ 2)
    {sec' : FwModuleSection} (hsec' : sec' ∈ secs ++ [sec]) (hsets : Sets mem arr sec') :
    arr.count s.module ≠ 0 := by
  by_cases hsets' : Sets mem arr sec
  · exact hdone.counted arr h2 hsets'
  · have hreset : ¬ Resets mem arr sec := by
      rintro ⟨hsec, hnz | rfl⟩
      · exact hsets' ⟨hsec, hnz⟩
      · exact h1 rfl
    rw [(hdone.same arr hreset).1]
    rcases List.mem_append.mp hsec' with hsec' | hsec'
    · exact h.counted arr h1 h2 sec' hsec' hsets
    · obtain rfl := List.mem_singleton.mp hsec'
      exact absurd hsets hsets'

theorem step_marked {i : ℕ} {sec' : FwModuleSection} (hi : (secs ++ [sec])[i]? = some sec')
    (hsets : Sets mem arr sec') : ∃ arr' : FwArray, arr'.sectionType = arr.sectionType ∧
      arr'.mark i ∈ (fwSectionHeap secs.length s heap).allocs := by
  rcases getElem?_snoc hi with hi | ⟨rfl, rfl⟩
  · obtain ⟨arr', harr', hmark⟩ := h.marked arr i sec' hi hsets
    exact ⟨arr', harr', allocs_subset_sectionHeap _ hmark⟩
  · obtain ⟨arr', harr', hcount, hmark⟩ := hdone.marked arr hsets
    have hmem := (hdone.arrays arr').mpr ⟨⟨hsets.1.trans harr'.symm, hsets.2⟩, hcount⟩
    refine ⟨arr', harr', ?_⟩
    rw [sectionHeap_allocs]
    exact List.mem_append_right _ (List.mem_flatMap.mpr ⟨arr', hmem, hmark _⟩)

theorem step_absent (honce : Once mem (secs ++ [sec])) (h0 : arr.count s.module = 0) :
    (fwSectionHeap secs.length s heap).array arr = none := by
  rw [sectionHeap_array, if_neg fun hmem => ((hdone.arrays arr).mp hmem).2 h0]
  by_cases hreset : Resets mem arr sec
  · exact (h.fresh honce hreset).1
  · rw [(hdone.same arr hreset).1] at h0
    exact h.absent honce.left arr h0

theorem step_whole (honce : Once mem (secs ++ [sec])) :
    (fwSectionHeap secs.length s heap).allocs.Perm
      (start ++ (fwSectionHeap secs.length s heap).reach) := by
  have hnone : ∀ arr ∈ fwSectionArrays s, heap.array arr = none := fun arr hmem =>
    (h.fresh honce ((hdone.arrays arr).mp hmem).1.resets).1
  have hreach := reach_perm hdone.nodup hnone fun arr => sectionHeap_array secs.length arr
  rw [sectionHeap_allocs]
  refine ((h.whole honce.left).append_right _).trans ?_
  rw [List.append_assoc]
  exact hreach.symm.append_left _

/-- One more handler, which is the induction step over the sections of a file. -/
theorem step : Built mem start (secs ++ [sec]) s.module (fwSectionHeap secs.length s heap) where
  filedata := (foldl_alloc (fwSectionArrays s) heap).2.1.trans h.filedata
  shape _ _ hb := h.step_shape hb
  last _ hne := h.step_last hdone hne
  unset _ hnot := h.step_unset hdone hnot
  counted _ h1 h2 _ hsec' hsets := h.step_counted hdone h1 h2 hsec' hsets
  marked _ _ _ hi hsets := h.step_marked hdone hi hsets
  allocated _ _ hb := h.step_allocated hb
  absent honce _ h0 := h.step_absent hdone honce h0
  whole honce := h.step_whole hdone honce

end Built

end Step

/-! ## A whole parse

The sections are those of the file, and all of their handlers have returned `FW_OK`. That of the
code section has nothing to do. -/

/-- The heap says nothing of the other fields of a module, so it is that of every module with the
same counts and the same pointers in its entries. -/
theorem Built.congr {start : List FwAddr} {secs : List FwModuleSection} {m' : LoadedModule}
    (h : Built mem start secs m heap)
    (hsame : ∀ arr : FwArray,
      arr.count m' = arr.count m ∧ ∀ i, fwEntryCells m' i arr = fwEntryCells m i arr) :
    Built mem start secs m' heap where
  filedata := h.filedata
  shape := h.shape
  last arr hne := by
    rw [(hsame arr).1] at hne
    obtain ⟨i, sec, hi, hsets, hlast, hb⟩ := h.last arr hne
    refine ⟨i, sec, hi, hsets, hlast, ?_⟩
    rw [hb, fwArrayBlock, fwArrayBlock, (hsame arr).1, (hsame arr).2]
  unset arr hnot := by
    rw [(hsame arr).1]
    exact h.unset arr hnot
  counted arr h1 h2 := by
    rw [(hsame arr).1]
    exact h.counted arr h1 h2
  marked := h.marked
  allocated := h.allocated
  absent honce arr := by
    rw [(hsame arr).1]
    exact h.absent honce arr
  whole := h.whole

/-- A section that was parsed: its destructor is set when it holds entries, other than types. -/
def Armed (mem : Mem) (sec sec' : FwModuleSection) : Prop :=
  sec'.type = sec.type ∧ (sec'.free = true ↔ ∃ arr : FwArray, arr ≠ .type ∧ Sets mem arr sec)

/-- The handlers of the sections, one after the other, by induction on the sections. The heap grows
by what each of them allocates, and the sections come back with the flag `free` set where a
destructor has to run. -/
theorem built_of_parseSections {start : List FwAddr} {pre secs secs' : List FwModuleSection}
    {m' : LoadedModule} (hfree : ∀ sec ∈ secs, sec.free = false)
    (h : (fwParseSections mem secs m).res = .ok ((.ok, secs'), m'))
    (hbuilt : Built mem start pre m heap) :
    Built mem start (pre ++ secs) m' (fwParseHeap mem pre.length secs m heap) ∧
      List.Forall₂ (Armed mem) secs secs' := by
  induction secs generalizing pre m heap secs' with
  | nil =>
    cases h
    rw [List.append_nil]
    exact ⟨hbuilt, .nil⟩
  | cons sec rest ih =>
    obtain ⟨hsec, hrest⟩ := List.forall_mem_cons.mp hfree
    rw [fwParseSections] at h
    rcases hrun : (fwSectionHandler mem sec.type ⟨m, sec⟩).res with e | ⟨_ | u, s⟩
    · simp only [hrun] at h
      cases h
    · simp only [hrun] at h
      cases h
    · simp only [hrun] at h
      rcases htail : (fwParseSections mem rest s.module).res with e | ⟨⟨status, rest'⟩, m₁⟩
      · simp only [htail] at h
        cases h
      · simp only [htail] at h
        cases h
        have hdone := arraysDone_of_runs hsec hrun
        obtain ⟨hbuilt', harmed⟩ := ih hrest htail (hbuilt.step hdone)
        rw [List.append_assoc, List.length_append] at hbuilt'
        refine ⟨?_, .cons ⟨hdone.type, hdone.free⟩ harmed⟩
        rw [fwParseHeap]
        simp only [hrun]
        exact hbuilt'

/-- No destructor is set before the parse; the handlers set them. -/
theorem free_of_loadSections {n : ℕ} {codeRef codeRef' : Option FwStr} {str str' : FwStr}
    {secs : List FwModuleSection}
    (h : Runs (fwLoadSections mem n codeRef) str (secs, codeRef') str') :
    ∀ sec ∈ secs, sec.free = false := by
  induction n generalizing codeRef str secs with
  | zero => exact (runs_halt.mp h).elim
  | succ n ih =>
    rcases Nat.lt_or_ge str.pos str.last with hlt | hge
    · obtain ⟨-, size, d, -, rest, hrest, rfl⟩ := (runs_loadSections_succ hlt).mp h
      exact List.forall_mem_cons.mpr ⟨rfl, ih hrest⟩
    · obtain ⟨rfl, -, -⟩ := (runs_loadSections_of_le hge).mp h
      exact List.forall_mem_nil _

/-- The heap of a module that was loaded and parsed with `FW_OK`. It starts with the module and its
sections, as loading has allocated them. -/
theorem built_of_parse {file str' : FwStr} {loaded : LoadedModule}
    (hload : Runs (_fwModuleLoad mem) file loaded str')
    (hparse : fwModuleParse mem loaded = .ok (.ok, m)) :
    Built mem (FwHeap.new loaded.sections.length).allocs loaded.sections m
        (fwModuleHeap mem loaded) ∧
      List.Forall₂ (Armed mem) loaded.sections m.sections := by
  obtain ⟨-, -, -, secs, codeRef, hsecs, -, rfl⟩ := runs_load.mp hload
  have hnew (arr : FwArray) : arr.count (.new secs codeRef) = 0 := by
    cases arr <;> rfl
  rw [fwModuleParse] at hparse
  rcases hrun : (fwParseSections mem secs (.new secs codeRef)).res with e | ⟨⟨status, secs'⟩, m'⟩
  · rw [show (LoadedModule.new secs codeRef).sections = secs from rfl] at hparse
    simp only [hrun] at hparse
    cases hparse
  · rw [show (LoadedModule.new secs codeRef).sections = secs from rfl] at hparse
    simp only [hrun] at hparse
    cases hparse
    obtain ⟨hbuilt, harmed⟩ := built_of_parseSections (free_of_loadSections hsecs) hrun
      (built_new _ secs.length hnew)
    refine ⟨hbuilt.congr fun arr => ?_, harmed⟩
    cases arr <;> exact ⟨rfl, fun _ => rfl⟩

end FastWasm
