import FastWasm.FreeRun
import Mathlib.Data.List.Perm.Basic

/-!
# Destructors and constructors

`fw_module_free` frees what was allocated while the module was parsed, each block once, exactly when
no section overwrites what one before it has allocated, and the element segments that hold functions
are the first ones, as many as there are functions (`frees_match_iff`). The second condition is
there because the destructor of the element segments runs to the number of functions.

The condition is about the payloads of the sections and the order they come in, and the result about
the log of the destructors. Enough it is because the destructors are then known to return, with a
log that is written down, and what it frees is counted against the allocations array by array. For
the other direction every array has a block that is lost when another one takes its place (its
mark); and a destructor of the element segments that reads as many entries as there are functions
reads behind the array, or leaves the functions of a segment alone, when the two are not in step.
-/

namespace FastWasm

open Logged (Fallible)
open Logged.Fallible
open Ownership

variable {mem : Mem} {loaded m : LoadedModule} {heap : FwHeap} {arr : FwArray} {n i j : ℕ}

/-- The destructors match the constructors: they return, they read what is there, and they free what
was allocated and nothing else, each block once. -/
structure FreesMatch (module : LoadedModule) (heap : FwHeap) : Prop where
  /-- no `NULL` or indeterminate pointer is used, and no entry that is not in its array -/
  returns : ∃ heap', (fwModuleFree module heap).res = .ok (⟨⟩, heap')
  /-- entries are read below the count of their array only -/
  below : ∀ arr i j, .touch (.array arr i) j ∈ (fwModuleFree module heap).log → j < arr.count module
  /-- nothing is used, nor freed again, behind its `free` -/
  tidy : Tidy (fwModuleFree module heap).log
  /-- what is freed is what was allocated, each block once -/
  frees : (freed (fwModuleFree module heap).log).Perm heap.allocs

/-- The element segments that hold functions are the first ones, as many as there are functions.
Those behind have no array to free. -/
def ElemsLead (module : LoadedModule) : Prop :=
  module.funcCnt ≤ module.elemCnt ∧
    ∀ j elem, module.elems[j]? = some elem → (elem.funcCnt ≠ 0 ↔ j < module.funcCnt.toNat)

/-- When the destructors match: no section comes behind one that it overwrites, and the element
segments, if there are any, are in step with the functions. -/
structure Destructible (mem : Mem) (loaded module : LoadedModule) : Prop where
  /-- nothing is overwritten -/
  once : Once mem loaded.sections
  /-- the element segments -/
  elems : module.elemCnt ≠ 0 → ElemsLead module

/-! ## What the destructors leave

The destructors of some arrays go over the entries and others do not. The latter is right where
entries hold no pointers. -/

theorem length_entries (m : LoadedModule) (i : ℕ) (arr : FwArray) :
    (fwArrayBlock m i arr).entries.length = arr.count m := by
  simp [fwArrayBlock]

theorem entries_take {cells : List (Cell FwAddr)}
    (h : cells ∈ (fwArrayBlock m i arr).entries.take n) :
    ∃ j < n, j < arr.count m ∧ cells = fwEntryCells m i arr j := by
  obtain ⟨j, hj, rfl⟩ := List.mem_take_iff_getElem.mp h
  obtain ⟨hn, hlen⟩ := Nat.lt_min.mp hj
  refine ⟨j, hn, by simpa [fwArrayBlock] using hlen, ?_⟩
  simp [fwArrayBlock]

theorem entries_drop {cells : List (Cell FwAddr)}
    (h : cells ∈ (fwArrayBlock m i arr).entries.drop n) :
    ∃ j, n ≤ j ∧ j < arr.count m ∧ cells = fwEntryCells m i arr j := by
  obtain ⟨j, hj, rfl⟩ := List.mem_drop_iff_getElem.mp h
  refine ⟨n + j, Nat.le_add_right .., by simpa [fwArrayBlock, Nat.add_comm] using hj, ?_⟩
  simp [fwArrayBlock]

/-- Entries with no pointer to a block point to nothing. -/
theorem targets_eq_nil {entries : List (List (Cell FwAddr))}
    (h : ∀ cells ∈ entries, ∀ a, .ptr a ∉ cells) : targets entries = [] := by
  refine List.eq_nil_iff_forall_not_mem.mpr fun a ha => ?_
  obtain ⟨cells, hcells, ha⟩ := mem_targets.mp ha
  exact h cells hcells a ha

/-- Only the pointer of an element segment can be indeterminate: one without functions is given no
array, and its entry was never set. -/
theorem indet_not_mem (harr : arr ≠ .elems) : .indet ∉ fwEntryCells m i arr j := by
  cases arr with
  | imports kind =>
    rw [fwEntryCells]
    split_ifs <;> simp
  | elems => exact absurd rfl harr
  | _ => simp [fwEntryCells]

/-- Where the destructor does not read the entries, they hold no pointers. -/
theorem walked_eq (harr : arr ≠ .elems) :
    arr.walked m = arr.count m ∨ arr.walked m = 0 ∧ ∀ i j, fwEntryCells m i arr j = [] := by
  cases arr with
  | elems => exact absurd rfl harr
  | tables => exact .inr ⟨rfl, fun _ _ => rfl⟩
  | memories => exact .inr ⟨rfl, fun _ _ => rfl⟩
  | globals => exact .inr ⟨rfl, fun _ _ => rfl⟩
  | datas => exact .inr ⟨rfl, fun _ _ => rfl⟩
  | _ => exact .inl rfl

/-- What an element segment points to: its functions, when it has some, and nothing otherwise. -/
theorem elemCells_eq {elem : FwModuleElem} (h : m.elems[j]? = some elem) :
    fwEntryCells m i .elems j =
      if elem.funcCnt ≠ 0 then [.ptr (.cell .elems i j 0)] else [.indet] := by
  rw [fwEntryCells, h]
  simp

/-- The destructor of an array frees all that it owns. It walks over all entries, or over none where
they own nothing. That of the element segments goes by the number of functions, so the segments have
to be in step with them. -/
theorem spent_block (hlen : m.elems.length = m.elemCnt.toNat)
    (helems : arr = .elems → ElemsLead m) :
    Spent (some (fwArrayBlock m i arr)) (arr.walked m) := by
  have hcount := length_entries m i arr
  by_cases harr : arr = .elems
  · subst harr
    obtain ⟨hle, hlead⟩ := helems rfl
    have helem {j : ℕ} (hj : j < FwArray.elems.count m) : ∃ elem, m.elems[j]? = some elem :=
      ⟨_, List.getElem?_eq_getElem (hlen ▸ hj)⟩
    refine ⟨⟨hcount ▸ UInt32.le_iff_toNat_le.mp hle, fun cells hcells hindet => ?_⟩,
      fun b hb => ?_⟩
    · obtain ⟨j, hjn, hj, rfl⟩ := entries_take hcells
      obtain ⟨elem, hget⟩ := helem hj
      rw [elemCells_eq hget, if_pos ((hlead j elem hget).mpr hjn)] at hindet
      simp at hindet
    · obtain rfl := Option.some.inj hb
      refine targets_eq_nil fun cells hcells a ha => ?_
      obtain ⟨j, hnj, hj, rfl⟩ := entries_drop hcells
      obtain ⟨elem, hget⟩ := helem hj
      rw [elemCells_eq hget, if_neg fun h =>
        Nat.not_lt.mpr hnj ((hlead j elem hget).mp h)] at ha
      simp at ha
  · have hle : arr.walked m ≤ arr.count m := by
      rcases @walked_eq m arr harr with h | ⟨h, -⟩
      · exact Nat.le_of_eq h
      · rw [h]
        exact Nat.zero_le _
    refine ⟨⟨hcount ▸ hle, fun cells hcells hindet => ?_⟩, fun b hb => ?_⟩
    · obtain ⟨j, -, -, rfl⟩ := entries_take hcells
      exact indet_not_mem harr hindet
    · obtain rfl := Option.some.inj hb
      refine targets_eq_nil fun cells hcells a ha => ?_
      obtain ⟨j, hnj, hj, rfl⟩ := entries_drop hcells
      rcases @walked_eq m arr harr with h | ⟨-, hnil⟩
      · rw [h] at hnj
        exact Nat.not_lt.mpr hnj hj
      · rw [hnil] at ha
        cases ha

/-! ## A module that was parsed

The three facts about a parsed module that the rest is derived from: its heap, the destructors that
are set, and the number of its element segments. -/

/-- What is known of a module that was loaded and parsed with `FW_OK`. -/
structure Parsed (mem : Mem) (loaded m : LoadedModule) : Prop where
  /-- its heap -/
  built : Built mem (FwHeap.new loaded.sections.length).allocs loaded.sections m
    (fwModuleHeap mem loaded)
  /-- its destructors -/
  armed : List.Forall₂ (Armed mem) loaded.sections m.sections
  /-- its element segments -/
  elems : m.elems.length = m.elemCnt.toNat

theorem parsed_of_parse {file str' : FwStr} (hload : Runs (_fwModuleLoad mem) file loaded str')
    (hparse : fwModuleParse mem loaded = .ok (.ok, m)) : Parsed mem loaded m := by
  obtain ⟨hbuilt, harmed⟩ := built_of_parse hload hparse
  refine ⟨hbuilt, harmed, ?_⟩
  obtain ⟨-, -, -, secs, codeRef, -, -, rfl⟩ := runs_load.mp hload
  obtain ⟨m', hhandled, hm⟩ := handled_of_parse hparse
  have hcounted : m'.Counted := hhandled.induct
    (fun _ _ _ hrun => counted_of_done (done_of_runs hrun)) (full_iff.mp (full_new _ _)).1
  rw [hm]
  exact hcounted.2.2.2.2.1.symm

namespace Parsed

theorem getElem {sec : FwModuleSection} (h : Parsed mem loaded m)
    (hi : loaded.sections[i]? = some sec) :
    ∃ sec', m.sections[i]? = some sec' ∧ Armed mem sec sec' := by
  obtain ⟨hlt, rfl⟩ := List.getElem?_eq_some_iff.mp hi
  have hlt' : i < m.sections.length := h.armed.length_eq ▸ hlt
  exact ⟨_, List.getElem?_eq_getElem hlt', List.Forall₂.get h.armed hlt hlt'⟩

theorem getElem' {sec' : FwModuleSection} (h : Parsed mem loaded m)
    (hi : m.sections[i]? = some sec') :
    ∃ sec, loaded.sections[i]? = some sec ∧ Armed mem sec sec' := by
  obtain ⟨hlt, rfl⟩ := List.getElem?_eq_some_iff.mp hi
  have hlt' : i < loaded.sections.length := h.armed.length_eq ▸ hlt
  exact ⟨_, List.getElem?_eq_getElem hlt', List.Forall₂.get h.armed hlt' hlt⟩

/-- The destructors that are set are those of the sections with entries. -/
theorem mem_freeTypes {t : UInt8} (h : Parsed mem loaded m) :
    t ∈ freeTypes m.sections.zipIdx ↔ ∃ arr : FwArray, arr ≠ .type ∧ arr.sectionType = t ∧
      ∃ sec ∈ loaded.sections, Sets mem arr sec := by
  refine ⟨?_, ?_⟩
  · intro ht
    obtain ⟨⟨sec', i⟩, hnode, rfl⟩ := List.mem_map.mp ht
    obtain ⟨hnode, hfree⟩ := List.mem_filter.mp hnode
    obtain ⟨sec, hi, htype, harmed⟩ := h.getElem' (List.mem_zipIdx_iff_getElem?.mp hnode)
    obtain ⟨arr, h1, hsets⟩ := harmed.mp hfree
    exact ⟨arr, h1, hsets.1.symm.trans htype.symm, sec, List.mem_of_getElem? hi, hsets⟩
  · rintro ⟨arr, h1, rfl, sec, hsec, hsets⟩
    obtain ⟨i, hi⟩ := List.getElem?_of_mem hsec
    obtain ⟨sec', hi', htype, harmed⟩ := h.getElem hi
    refine List.mem_map.mpr ⟨(sec', i), List.mem_filter.mpr
      ⟨List.mem_zipIdx_iff_getElem?.mpr hi', harmed.mpr ⟨arr, h1, hsets⟩⟩, ?_⟩
    exact htype.trans hsets.1

/-- No destructor is set twice when nothing is overwritten. -/
theorem nodup_freeTypes (h : Parsed mem loaded m) (honce : Once mem loaded.sections) :
    (freeTypes m.sections.zipIdx).Nodup := by
  refine List.pairwise_map.mpr (List.pairwise_filter.mpr ?_)
  refine List.pairwise_iff_getElem.mpr fun i j hi hj hij hfree hfree' heq => ?_
  rw [List.length_zipIdx] at hi hj
  rw [List.getElem_zipIdx] at hfree heq
  rw [List.getElem_zipIdx] at hfree' heq
  obtain ⟨sec, hseci, htype, harmed⟩ := h.getElem' (List.getElem?_eq_getElem hi)
  obtain ⟨sec', hsecj, htype', harmed'⟩ := h.getElem' (List.getElem?_eq_getElem hj)
  obtain ⟨arr, -, hsets⟩ := harmed.mp hfree
  obtain ⟨arr', -, hsets'⟩ := harmed'.mp hfree'
  obtain ⟨hi', rfl⟩ := List.getElem?_eq_some_iff.mp hseci
  obtain ⟨hj', rfl⟩ := List.getElem?_eq_some_iff.mp hsecj
  refine List.pairwise_iff_getElem.mp (honce arr) i j hi' hj' hij hsets ⟨?_, .inl hsets'.2⟩
  exact htype'.symm.trans (heq.symm.trans (htype.trans hsets.1))

/-- An array is there when a section holds entries of it. -/
theorem array_eq_none (h : Parsed mem loaded m) (h1 : arr ≠ .type)
    (hnot : arr.sectionType ∉ freeTypes m.sections.zipIdx) :
    (fwModuleHeap mem loaded).array arr = none :=
  (h.built.unset arr fun sec hsec hsets =>
    hnot (h.mem_freeTypes.mpr ⟨arr, h1, rfl, sec, hsec, hsets⟩)).1

/-! ### Enough

When the condition holds, every array that a destructor goes to can be read, and the list of uses is
that of what was allocated. -/

/-- The destructor of an array frees all that it owns. -/
theorem spent (h : Parsed mem loaded m) (hcond : Destructible mem loaded m)
    (helems : arr = .elems → arr.count m ≠ 0) :
    Spent ((fwModuleHeap mem loaded).array arr) (arr.walked m) := by
  by_cases h0 : arr.count m = 0
  · rw [h.built.absent hcond.once arr h0]
    refine ⟨?_, fun _ hb => by cases hb⟩
    rcases @walked_eq m arr fun harr => helems harr h0 with hwalked | ⟨hwalked, -⟩
    · exact hwalked.trans h0
    · exact hwalked
  · obtain ⟨i, -, -, -, -, harray⟩ := h.built.last arr h0
    rw [harray]
    refine spent_block h.elems fun harr => hcond.elems fun hz => h0 ?_
    rw [harr]
    exact congrArg UInt32.toNat hz

/-- There are element segments when their destructor is set. -/
theorem elems_counted (h : Parsed mem loaded m)
    (ht : FwArray.elems.sectionType ∈ freeTypes m.sections.zipIdx) :
    FwArray.elems.count m ≠ 0 := by
  obtain ⟨arr, -, harr, sec, hsec, hsets⟩ := h.mem_freeTypes.mp ht
  obtain rfl : arr = .elems := FwArray.sectionType_inj (by decide) harr
  exact h.built.counted .elems (by decide) (by decide) sec hsec hsets

/-- Before the destructors run, no two of them are of one section type and all arrays can be read.
-/
theorem nodesLeft (h : Parsed mem loaded m) (hcond : Destructible mem loaded m) :
    NodesLeft m (fwModuleHeap mem loaded) m.sections.zipIdx (fwModuleHeap mem loaded) where
  nodup := h.nodup_freeTypes hcond.once
  known t ht := by
    obtain ⟨arr, h1, ht, -⟩ := h.mem_freeTypes.mp ht
    exact ⟨arr, h1, ht⟩
  readable t ht arr harr := by
    refine (h.spent hcond fun helems => ?_).1
    rw [helems]
    refine h.elems_counted ?_
    rwa [← helems, (mem_arraysOf.mp harr).2]
  filedata := rfl
  array _ _ := rfl

/-- The destructors of the sections free what their arrays own. -/
theorem freed_arrays (h : Parsed mem loaded m) (hcond : Destructible mem loaded m) :
    (((freeTypes m.sections.zipIdx).flatMap arraysOf).flatMap fun arr =>
      freed ((fwModuleHeap mem loaded).usesOf m arr)).Perm
        (FwArray.ofSections.flatMap fun arr => owned ((fwModuleHeap mem loaded).array arr)) := by
  refine ((flatMap_arraysOf_perm (h.nodup_freeTypes hcond.once)).flatMap_right _).trans ?_
  refine (List.Perm.flatMap_left _ fun arr harr => ?_).trans
    (List.Perm.of_eq (flatMap_filter fun arr harr hnot => ?_))
  · have ht := of_decide_eq_true (List.mem_filter.mp harr).2
    refine (h.spent hcond fun helems => ?_).perm
    rw [helems] at ht ⊢
    exact h.elems_counted ht
  · have h1 : arr ≠ .type := ne_of_mem_of_not_mem harr (by decide)
    rw [h.array_eq_none h1 (of_decide_eq_false hnot)]
    rfl

/-- What is freed was allocated, and the other way round. -/
theorem freed_perm (h : Parsed mem loaded m) (hcond : Destructible mem loaded m) :
    (freed ((fwModuleHeap mem loaded).moduleUses m)).Perm (fwModuleHeap mem loaded).allocs := by
  have hnodes : m.sections.zipIdx.map (fun node => FwAddr.node node.2) =
      (List.range loaded.sections.length).map .node := by
    have hmap : m.sections.zipIdx.map (fun node => FwAddr.node node.2) =
        (m.sections.zipIdx.map Prod.snd).map .node := (List.map_map ..).symm
    rw [hmap, List.zipIdx_map_snd, ← h.armed.length_eq, List.range_eq_range']
  have htype : (freed ((fwModuleHeap mem loaded).usesOf m .type)).Perm
      (owned ((fwModuleHeap mem loaded).array .type)) :=
    (h.spent hcond fun harr => by cases harr).perm
  refine List.Perm.trans ?_ (h.built.whole hcond.once).symm
  rw [FwHeap.moduleUses, freed_append, freed_append]
  refine (((@freed_nodes m (fwModuleHeap mem loaded) _).trans
    ((h.freed_arrays hcond).append_left _)).append (htype.append_right _)).trans ?_
  rw [hnodes, FwHeap.reach, FwArray.all, List.flatMap_cons, FwHeap.new]
  refine List.perm_iff_count.mpr fun a => ?_
  simp only [List.count_append, List.count_cons, freed_free, freed_nil, List.count_nil]
  omega

/-- The entries that are read are in their array, and below its count. -/
theorem walked_le {e : Use FwAddr} (h : Parsed mem loaded m) (hcond : Destructible mem loaded m)
    (he : e ∈ (fwModuleHeap mem loaded).usesOf m arr) : arr.walked m ≤ arr.count m := by
  by_cases h0 : arr.count m = 0
  · rw [FwHeap.usesOf, h.built.absent hcond.once arr h0] at he
    cases he
  · have hread := (h.spent hcond fun _ => h0).1
    obtain ⟨i, -, -, -, -, harray⟩ := h.built.last arr h0
    rw [harray] at hread
    exact Nat.le_trans hread.1 (Nat.le_of_eq (length_entries m i arr))

/-- The destructors match when nothing is overwritten and the element segments are in step. The run
of `fw_module_free` is known then, so what it reads, uses and frees is compared with what the parse
has allocated. -/
theorem freesMatch (h : Parsed mem loaded m) (hcond : Destructible mem loaded m) :
    FreesMatch m (fwModuleHeap mem loaded) := by
  have hleft := h.nodesLeft hcond
  have htype : Readable ((fwModuleHeap mem loaded).array .type) (FwArray.type.walked m) :=
    (h.spent hcond fun harr => by cases harr).1
  obtain ⟨heap', hrun⟩ := moduleFree_run hleft htype h.built.filedata
  have hok : (fwModuleFree m (fwModuleHeap mem loaded)).res = .ok (⟨⟩, heap') := by rw [hrun]
  have hlog : (fwModuleFree m (fwModuleHeap mem loaded)).log =
      (fwModuleHeap mem loaded).moduleUses m := by rw [hrun]
  refine ⟨⟨heap', hok⟩, fun arr i j htouch => ?_, ?_, ?_⟩
  · rcases (moduleFree_ok h.built.filedata hok).1 _ htouch with ⟨_, hnode⟩ | ⟨arr', he⟩ | hdata |
      hmodule
    · cases hnode
    · have hown := owner_of_usesOf h.built.shape he
      obtain rfl : arr = arr' := Option.some.inj hown
      exact Nat.lt_of_lt_of_le (touch_mem_uses he) (h.walked_le hcond he)
    · cases hdata
    · cases hmodule
  · rw [hlog]
    exact tidy_moduleUses h.built.shape hleft htype
  · rw [hlog]
    exact h.freed_perm hcond

/-! ### Needed

When everything that was allocated is freed, it is reached, so no array has taken the place of
another one. -/

/-- A block of an array that is freed is a block of the array that the module reaches. -/
theorem freed_owner {a : FwAddr} (h : Parsed mem loaded m)
    (hmatch : FreesMatch m (fwModuleHeap mem loaded)) (hown : a.owner = some arr)
    (halloc : a ∈ (fwModuleHeap mem loaded).allocs) :
    .free a ∈ (fwModuleHeap mem loaded).usesOf m arr := by
  obtain ⟨heap', hok⟩ := hmatch.returns
  have hfree := mem_freed.mp (hmatch.frees.mem_iff.mpr halloc)
  rcases (moduleFree_ok h.built.filedata hok).1 _ hfree with
    ⟨_, hnode⟩ | ⟨arr', he⟩ | hdata | hmodule
  · rw [show a = .node _ from hnode] at hown
    cases hown
  · have hown' : a.owner = some arr' := owner_of_usesOf h.built.shape he
    rw [hown] at hown'
    rwa [Option.some.inj hown']
  · rw [show a = .filedata from hdata] at hown
    cases hown
  · rw [show a = .module from hmodule] at hown
    cases hown

theorem owner_mark (arr : FwArray) (i : ℕ) : (arr.mark i).owner = some arr := by
  cases arr <;> rfl

/-- The mark of the types and of the imports is behind an entry, that of the others is the array. -/
theorem mark_eq (m : LoadedModule) (arr : FwArray) (i : ℕ) :
    (∃ c, arr.mark i = .cell arr i 0 c) ∧ arr.walked m = arr.count m ∨
      arr.mark i = .array arr i ∧ arr.sectionType ≠ 1 ∧ arr.sectionType ≠ 2 := by
  cases arr with
  | type => exact .inl ⟨⟨0, rfl⟩, rfl⟩
  | imports kind => exact .inl ⟨⟨1, rfl⟩, rfl⟩
  | _ => exact .inr ⟨rfl, by decide, by decide⟩

/-- When everything is freed, nothing was overwritten. An array that a later section of the same
type replaces is reached by no pointer any more, so none of the destructors can have freed it. -/
theorem once (h : Parsed mem loaded m) (hmatch : FreesMatch m (fwModuleHeap mem loaded)) :
    Once mem loaded.sections := by
  refine fun arr => List.pairwise_iff_getElem.mpr fun i j hi hj hij hsets hreset => ?_
  obtain ⟨arr', harr', hmark⟩ := h.built.marked arr i _ (List.getElem?_eq_getElem hi) hsets
  have hfree := h.freed_owner hmatch (owner_mark arr' i) hmark
  obtain ⟨b, hb, -⟩ := addr_of_uses hfree
  obtain ⟨i', m₀, rfl⟩ := h.built.shape arr' b hb
  -- the array that is freed is the one of this section, and it has entries
  have hi' : i' = i ∧ arr'.count m ≠ 0 := by
    rw [FwHeap.usesOf, hb] at hfree
    have haddr := addr_of_block_uses hfree
    rcases mark_eq m arr' i with ⟨⟨c, hc⟩, hwalked⟩ | ⟨hc, h1, h2⟩
    · rcases haddr with h' | ⟨j', hj', c', h', -⟩
      · cases hc.symm.trans h'
      · cases hc.symm.trans h'
        exact ⟨rfl, Nat.ne_of_gt (hwalked ▸ hj')⟩
    · rcases haddr with h' | ⟨j', hj', c', h', -⟩
      · cases hc.symm.trans h'
        exact ⟨rfl, h.built.counted arr' h1 h2 _ (List.getElem_mem hi)
          ⟨hsets.1.trans harr'.symm, hsets.2⟩⟩
      · cases hc.symm.trans h'
  obtain ⟨rfl, hcount⟩ := hi'
  obtain ⟨i'', sec, -, -, hlast, hb'⟩ := h.built.last arr' hcount
  obtain rfl : i' = i'' := by
    rw [hb'] at hb
    exact (FwAddr.array.inj (congrArg Block.addr (Option.some.inj hb))).2.symm
  refine hlast j _ hij (List.getElem?_eq_getElem hj) ⟨hreset.1.trans harr'.symm, ?_⟩
  refine hreset.2.imp_right fun htype => ?_
  subst htype
  exact FwArray.sectionType_inj (by decide) harr'

/-- When everything is freed, and only what is there is read, the element segments are in step:
those that the destructor walks over have functions, so that their pointer was written, and the
others have none to free. -/
theorem elemsLead (h : Parsed mem loaded m) (hmatch : FreesMatch m (fwModuleHeap mem loaded))
    (h0 : m.elemCnt ≠ 0) : ElemsLead m := by
  obtain ⟨heap', hok⟩ := hmatch.returns
  have hcount : FwArray.elems.count m ≠ 0 := fun h => h0 (UInt32.toNat_inj.mp h)
  obtain ⟨i, sec, hsec, hsets, -, harray⟩ := h.built.last .elems hcount
  obtain ⟨sec', hsec', htype, harmed⟩ := h.getElem hsec
  have hread := (moduleFree_ok h.built.filedata hok).2 (sec', i)
    (List.mem_zipIdx_iff_getElem?.mpr hsec') (harmed.mpr ⟨.elems, by decide, hsets⟩)
    (htype.trans hsets.1)
  rw [harray] at hread
  obtain ⟨hle, hindet⟩ := hread
  rw [length_entries] at hle
  refine ⟨UInt32.le_iff_toNat_le.mpr hle, fun j elem hget => ?_⟩
  obtain ⟨hj, -⟩ := List.getElem?_eq_some_iff.mp hget
  rw [h.elems] at hj
  refine ⟨?_, ?_⟩
  · -- a segment that holds functions is freed
    intro hne
    have hcell : FwAddr.cell .elems i j 0 ∈ (fwArrayBlock m i .elems).addrs := by
      refine cell_mem_addrs hj ?_
      rw [elemCells_eq hget, if_pos hne]
      exact List.mem_cons_self
    have hfree := h.freed_owner hmatch rfl (h.built.allocated .elems _ harray hcell)
    rw [FwHeap.usesOf, harray] at hfree
    rcases addr_of_block_uses hfree with haddr | ⟨j', hj', c, haddr, -⟩
    · cases haddr
    · cases haddr
      exact hj'
  · -- a segment that is read was written
    intro hlt
    by_contra hne
    have hmem : fwEntryCells m i .elems j ∈
        (fwArrayBlock m i .elems).entries.take (FwArray.elems.walked m) := by
      have hlen : j < (fwArrayBlock m i .elems).entries.length := by
        rw [length_entries]
        exact hj
      exact List.mem_take_iff_getElem.mpr ⟨j, Nat.lt_min.mpr ⟨hlt, hlen⟩, by simp [fwArrayBlock]⟩
    refine hindet _ hmem ?_
    rw [elemCells_eq hget, if_neg (not_not.mpr hne)]
    exact List.mem_cons_self

end Parsed

/-- The destructors match the constructors if and only if nothing is overwritten and the element
segments are in step with the functions. The module is any that was loaded from a file (`hload`) and
parsed with `FW_OK` (`hparse`), and its heap is what its handlers have allocated. No allocation
fails. -/
theorem frees_match_iff {file str' : FwStr} (hload : Runs (_fwModuleLoad mem) file loaded str')
    (hparse : fwModuleParse mem loaded = .ok (.ok, m)) :
    FreesMatch m (fwModuleHeap mem loaded) ↔ Destructible mem loaded m := by
  have h := parsed_of_parse hload hparse
  refine ⟨?_, ?_⟩
  · exact fun hmatch => ⟨h.once hmatch, h.elemsLead hmatch⟩
  · exact h.freesMatch

/-- What the parse leaves of the file with sections of many kinds: three element segments, the first
two of them with a function each. -/
theorem mixedFile_parse : ∃ str' m, Runs (_fwModuleLoad (memOf mixedFile)) ⟨0, 83⟩
      (.new (mixedSections ++ mixedRest) ⟨74, 83⟩) str' ∧
    fwModuleParse (memOf mixedFile) (.new (mixedSections ++ mixedRest) ⟨74, 83⟩) = .ok (.ok, m) ∧
    m.funcCnt = 2 ∧ m.elemCnt = 3 ∧
      m.elems = [⟨0, 1, some [1]⟩, ⟨0, 1, some [2]⟩, ⟨0, 0, none⟩] := by
  obtain ⟨str', hload⟩ := load_iff_fileAt.mpr ⟨_, _, mixedFile_at, rfl⟩
  obtain ⟨c, hfit, hfuncs, -⟩ := mixedSections_fit
  obtain ⟨m, hm, rfl⟩ :=
    (handled_iff_fits (m := .new (mixedSections ++ mixedRest) ⟨74, 83⟩)).mpr hfit
  have hcount : Runs (fwStrLebGetu32 (memOf mixedFile)) ⟨54, 72⟩ 3 ⟨55, 72⟩ := rfl
  have hreads : Reads (fwElemEntry (memOf mixedFile)) ⟨55, 72⟩
      [⟨0, 1, some [1]⟩, ⟨0, 1, some [2]⟩, ⟨0, 0, none⟩] ⟨72, 72⟩ :=
    .cons (rfl : _ = Except.ok (_, (⟨61, 72⟩ : FwStr))) <|
      .cons (rfl : _ = Except.ok (_, (⟨67, 72⟩ : FwStr))) (.cons rfl (.nil _))
  have helems : Runs (fwModuleSectionElem (memOf mixedFile)) ⟨m, ⟨9, ⟨54, 72⟩, false⟩⟩ ⟨⟩ _ :=
    runs_vecSection.mpr ⟨3, ⟨55, 72⟩, hcount, .inl ⟨by decide, _, rfl, _, hreads, rfl, rfl⟩⟩
  have hrest : Handled (memOf mixedFile) m mixedRest _ := .cons helems (.cons rfl (.nil _))
  obtain ⟨secs, hparse⟩ := @parse_of_handled _ (.new (mixedSections ++ mixedRest) ⟨74, 83⟩) _
    (handled_append.mpr ⟨m, hm, hrest⟩)
  exact ⟨str', _, hload, hparse, hfuncs, rfl, rfl⟩

/-- Its destructors match: the file has two segments with a function each, and two functions. -/
theorem mixedFile_match : ∃ loaded str' m,
    Runs (_fwModuleLoad (memOf mixedFile)) ⟨0, 83⟩ loaded str' ∧
      fwModuleParse (memOf mixedFile) loaded = .ok (.ok, m) ∧
      FreesMatch m (fwModuleHeap (memOf mixedFile) loaded) := by
  obtain ⟨str', m, hload, hparse, hfuncs, helemCnt, helems⟩ := mixedFile_parse
  refine ⟨_, str', m, hload, hparse,
    (frees_match_iff hload hparse).mpr ⟨fun arr => ?_, fun _ => ?_⟩⟩
  · -- no two sections are of one type
    have htypes : (mixedSections ++ mixedRest).Pairwise fun sec sec' => sec.type ≠ sec'.type := by
      decide
    exact htypes.imp fun hne hsets hresets => hne (hsets.1.trans hresets.1.symm)
  · refine ⟨by rw [hfuncs, helemCnt]; decide, fun j elem hj => ?_⟩
    rw [helems] at hj
    rw [hfuncs]
    rcases j with _ | _ | _ | j
    all_goals simp at hj
    all_goals subst hj
    all_goals simp

/-- A file of a code section without entries and of one element segment with one function. -/
def oneElem : List UInt8 :=
  wasmHeader ++ [0x0a, 0x01, 0x00, 0x09, 0x07, 0x01, 0x00, 0x41, 0x00, 0x0b, 0x01, 0x00]

/-- The functions of the segment are not freed. -/
theorem oneElem_leaks : ¬ ∀ loaded str' m,
    Runs (_fwModuleLoad (memOf oneElem)) ⟨0, 20⟩ loaded str' →
      fwModuleParse (memOf oneElem) loaded = .ok (.ok, m) →
      FreesMatch m (fwModuleHeap (memOf oneElem) loaded) := by
  intro h
  have hload : Runs (_fwModuleLoad (memOf oneElem)) ⟨0, 20⟩
      (.new [⟨10, ⟨10, 11⟩, false⟩, ⟨9, ⟨13, 20⟩, false⟩] ⟨10, 11⟩) ⟨20, 20⟩ := rfl
  have hparse : fwModuleParse (memOf oneElem)
      (.new [⟨10, ⟨10, 11⟩, false⟩, ⟨9, ⟨13, 20⟩, false⟩] ⟨10, 11⟩) =
        .ok (.ok, { LoadedModule.new [⟨10, ⟨10, 11⟩, false⟩, ⟨9, ⟨20, 20⟩, true⟩] ⟨10, 11⟩ with
          elemCnt := 1, elems := [⟨0, 1, some [0]⟩] }) := rfl
  exact absurd (h _ _ _ hload hparse).frees.length_eq (by decide)

end FastWasm
