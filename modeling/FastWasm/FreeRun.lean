import FastWasm.Allocations

/-!
# What the destructors do

`fw_module_free` section by section: which destructors run, which arrays they read, and what they
free. When every array that is reached can be read and no destructor runs twice, it returns, and its
log is known (`moduleFree_run`); nothing is used behind its `free` then (`tidy_moduleUses`). When it
returns, it has freed only what the module reaches (`moduleFree_ok`).

The log is written as a list that does not depend on the run: for each section the uses of its
arrays and of its node, and at the end those of the types, the bytes of the file and the module. So
questions about what is freed become questions about this list. The destructor of imports is the
only one that puts `NULL` for the pointers it has freed, and runs once or is harmless; the others
would free the same blocks again.
-/

namespace FastWasm

open Logged (Fallible get set emit)
open Logged.Fallible
open Ownership

variable {mem : Mem} {m : LoadedModule} {heap heap' h₀ : FwHeap} {arr : FwArray} {n : ℕ} {t : UInt8}

/-! ## One destructor

Each destructor is a loop over the entries of an array, and its log is known when the array can be
read. That of the imports is four such loops. -/

/-- The number of the entries that the destructor of an array reads. For the element segments it is
the number of functions, and a destructor that does not look at the entries reads none. -/
def FwArray.walked (m : LoadedModule) : FwArray → ℕ
  | .elems => m.funcCnt.toNat
  | .tables => 0
  | .memories => 0
  | .globals => 0
  | .datas => 0
  | arr => arr.count m

/-- The uses of the blocks of an array: its entries are read, what they point to is freed, and then
the array. -/
def FwHeap.usesOf (heap : FwHeap) (m : LoadedModule) (arr : FwArray) : List (Use FwAddr) :=
  uses (heap.array arr) (arr.walked m)

/-- The arrays that the destructor of a section type frees. -/
def arraysOf (t : UInt8) : List FwArray := FwArray.ofSections.filter fun arr => arr.sectionType = t

theorem mem_arraysOf : arr ∈ arraysOf t ↔ arr ≠ .type ∧ arr.sectionType = t := by
  have hmem : arr ∈ FwArray.ofSections ↔ arr ≠ .type := by
    rcases arr with _ | ⟨_ | _ | _ | _⟩ | _ | _ | _ | _ | _ | _ | _ <;> decide
  rw [arraysOf, List.mem_filter, hmem, decide_eq_true_eq]

theorem fwFreeArray_eq (h : Readable (heap.array arr) n) :
    fwFreeArray arr n heap = ⟨uses (heap.array arr) n, .ok (⟨⟩, heap)⟩ := by
  rw [fwFreeArray, Logged.get_bind_apply]
  exact freeArray_eq h

theorem readable_of_freeArray {u : PUnit} (h : (fwFreeArray arr n heap).res = .ok (u, heap')) :
    Readable (heap.array arr) n := by
  rw [fwFreeArray, Logged.get_bind_apply] at h
  exact readable_of_ok h

theorem arraysOf_eq (h1 : arr ≠ .type) (h2 : arr.sectionType ≠ 2) :
    arraysOf arr.sectionType = [arr] := by
  cases arr <;> first | rfl | exact absurd rfl h1 | exact absurd rfl h2

/-- In the loop over the kinds, the ones that are left are as they were. -/
structure KindsLeft (heap : FwHeap) (kinds : List FwImportKind) (heap' : FwHeap) : Prop where
  /-- none comes twice -/
  nodup : kinds.Nodup
  /-- the bytes of the file -/
  filedata : heap'.filedata = heap.filedata
  /-- the arrays, but for the imports of other kinds -/
  array : ∀ arr, (∀ kind, arr = .imports kind → kind ∈ kinds) → heap'.array arr = heap.array arr

/-- One round of that loop, over the imports of one kind, which are gone behind it. -/
theorem KindsLeft.round {kind : FwImportKind} {kinds : List FwImportKind}
    (h : KindsLeft heap (kind :: kinds) heap')
    (hread : Readable (heap.array (.imports kind)) ((FwArray.imports kind).walked m)) :
    ∃ heap'', fwImportsFreeKind m kind heap' =
      ⟨heap.usesOf m (.imports kind), .ok (⟨⟩, heap'')⟩ ∧ KindsLeft heap kinds heap'' := by
  obtain ⟨hkind, hnodup⟩ := List.nodup_cons.mp h.nodup
  have harr : heap'.array (.imports kind) = heap.array (.imports kind) :=
    h.array _ fun k hk => by rw [FwArray.imports.inj hk]; exact List.mem_cons_self
  have hfree : fwFreeArray (.imports kind) (m.importCnt kind).toNat heap' =
      ⟨heap.usesOf m (.imports kind), .ok (⟨⟩, heap')⟩ := by
    rw [FwHeap.usesOf, ← harr]
    exact fwFreeArray_eq (by rw [harr]; exact hread)
  rw [fwImportsFreeKind, Logged.bind_eq hfree, Logged.get_bind_apply, Logged.set_apply,
    List.append_nil]
  refine ⟨_, rfl, hnodup, h.filedata, fun arr hleft => ?_⟩
  have hne : arr ≠ .imports kind := fun h => hkind (hleft kind h)
  exact (Function.update_of_ne hne ..).trans
    (h.array arr fun k hk => List.mem_cons_of_mem _ (hleft k hk))

/-- The destructor of the imports, from arrays it can read. -/
theorem importsFree_run (hread : ∀ kind, Readable (heap.array (.imports kind))
    ((FwArray.imports kind).walked m)) : ∃ heap', fwModuleSectionImportsFree m heap =
      ⟨(arraysOf 2).flatMap (heap.usesOf m), .ok (⟨⟩, heap')⟩ ∧ heap'.filedata = heap.filedata ∧
      ∀ arr, arr.sectionType ≠ 2 → heap'.array arr = heap.array arr := by
  have hstart : KindsLeft heap FwImportKind.all heap :=
    ⟨by decide, rfl, fun _ _ => rfl⟩
  have hround (kind : FwImportKind) (kinds : List FwImportKind) (heap' : FwHeap)
      (h : KindsLeft heap (kind :: kinds) heap') := h.round (hread kind)
  obtain ⟨heap', hrun, hleft⟩ := forEach_run hround hstart
  refine ⟨heap', hrun, hleft.filedata, fun arr h2 => hleft.array arr fun kind hkind => ?_⟩
  rw [hkind] at h2
  exact absurd rfl h2

/-- The destructor of a section type, from arrays it can read. -/
theorem sectionFree_run (ht : ∃ arr : FwArray, arr ≠ .type ∧ arr.sectionType = t)
    (hread : ∀ arr ∈ arraysOf t, Readable (heap.array arr) (arr.walked m)) :
    ∃ heap', fwSectionFree m t heap =
        ⟨(arraysOf t).flatMap (heap.usesOf m), .ok (⟨⟩, heap')⟩ ∧
      heap'.filedata = heap.filedata ∧
      ∀ arr, t ≠ 2 ∨ arr.sectionType ≠ 2 → heap'.array arr = heap.array arr := by
  obtain ⟨arr, h1, rfl⟩ := ht
  by_cases h2 : arr.sectionType = 2
  · rw [h2] at hread ⊢
    obtain ⟨heap', hrun, hdata, hkept⟩ := importsFree_run fun kind =>
      hread (.imports kind) (mem_arraysOf.mpr ⟨by simp, rfl⟩)
    exact ⟨heap', hrun, hdata, fun arr h => hkept arr (h.resolve_left (not_not.mpr rfl))⟩
  · rw [arraysOf_eq h1 h2] at hread ⊢
    refine ⟨heap, ?_, rfl, fun _ _ => rfl⟩
    have hrun := fwFreeArray_eq (hread arr (List.mem_singleton_self _))
    rw [List.flatMap_singleton, FwHeap.usesOf]
    cases arr <;> first | exact hrun | exact absurd rfl h1 | exact absurd rfl h2

/-! ## All sections

The loop of `fw_module_free` takes a section off the list, calls its destructor and frees it. Arrays
that later destructors go to are left alone. -/

/-- The uses of the blocks of one section: those of its destructor, and its own. -/
def FwHeap.nodeUses (heap : FwHeap) (m : LoadedModule) (node : FwModuleSection × ℕ) :
    List (Use FwAddr) :=
  .touch (.node node.2) 0 ::
    ((if node.1.free then (arraysOf node.1.type).flatMap (heap.usesOf m) else []) ++
      [.free (.node node.2)])

/-- The types of the sections with a destructor, in the order of the sections. -/
def freeTypes (nodes : List (FwModuleSection × ℕ)) : List UInt8 :=
  (nodes.filter fun node => node.1.free).map fun node => node.1.type

section FreeTypes

variable {node : FwModuleSection × ℕ} {nodes : List (FwModuleSection × ℕ)}

theorem freeTypes_cons (h : node.1.free = true) :
    freeTypes (node :: nodes) = node.1.type :: freeTypes nodes := by
  simp [freeTypes, h]

theorem freeTypes_cons_of_not (h : node.1.free = false) :
    freeTypes (node :: nodes) = freeTypes nodes := by
  simp [freeTypes, h]

end FreeTypes

/-- In the loop over the sections, the arrays whose destructors are still to run are as they were,
and can be read. It is what the loop keeps from one section to the next. -/
structure NodesLeft (m : LoadedModule) (heap : FwHeap) (nodes : List (FwModuleSection × ℕ))
    (heap' : FwHeap) : Prop where
  /-- no destructor runs twice -/
  nodup : (freeTypes nodes).Nodup
  /-- they are destructors of arrays -/
  known : ∀ t ∈ freeTypes nodes, ∃ arr : FwArray, arr ≠ .type ∧ arr.sectionType = t
  /-- the arrays can be read -/
  readable : ∀ t ∈ freeTypes nodes, ∀ arr ∈ arraysOf t, Readable (heap.array arr) (arr.walked m)
  /-- the bytes of the file -/
  filedata : heap'.filedata = heap.filedata
  /-- the arrays, but for the imports -/
  array : ∀ arr, (arr.sectionType = 2 → 2 ∈ freeTypes nodes) → heap'.array arr = heap.array arr

/-- One round of that loop, behind which the arrays of the other sections are still as they were. A
node without the flag `free` has no destructor; one with it frees the arrays of its own type, and no
later node has that type and the flag. -/
theorem NodesLeft.round {node : FwModuleSection × ℕ} {nodes : List (FwModuleSection × ℕ)}
    (h : NodesLeft m heap (node :: nodes) heap') :
    ∃ heap'', fwFreeNode m node heap' = ⟨heap.nodeUses m node, .ok (⟨⟩, heap'')⟩ ∧
      NodesLeft m heap nodes heap'' := by
  obtain ⟨hnodup, hknown, hread, hdata, harray⟩ := h
  rw [fwFreeNode, Logged.emit_bind_apply, FwHeap.nodeUses]
  cases hfree : node.1.free with
  | false =>
    rw [freeTypes_cons_of_not hfree] at hnodup hknown hread harray
    exact ⟨heap', rfl, hnodup, hknown, hread, hdata, harray⟩
  | true =>
    rw [freeTypes_cons hfree] at hnodup hknown hread harray
    obtain ⟨hnot, hnodup⟩ := List.nodup_cons.mp hnodup
    obtain ⟨hknown, hknowns⟩ := List.forall_mem_cons.mp hknown
    obtain ⟨hread, hreads⟩ := List.forall_mem_cons.mp hread
    have hsame (arr : FwArray) (harr : arr ∈ arraysOf node.1.type) :
        heap'.array arr = heap.array arr :=
      harray arr fun h2 => by
        rw [← h2, (mem_arraysOf.mp harr).2]
        exact List.mem_cons_self
    obtain ⟨heap'', hrun, hdata', hkept⟩ := @sectionFree_run m heap' _ hknown fun arr harr => by
      rw [hsame arr harr]
      exact hread arr harr
    have huses : (arraysOf node.1.type).flatMap (heap'.usesOf m) =
        (arraysOf node.1.type).flatMap (heap.usesOf m) :=
      List.flatMap_congr fun arr harr => by rw [FwHeap.usesOf, FwHeap.usesOf, hsame arr harr]
    rw [huses] at hrun
    refine ⟨heap'', ?_, hnodup, hknowns, hreads, hdata'.trans hdata, fun arr h2 => ?_⟩
    · rw [if_pos rfl, if_pos rfl, Logged.bind_eq hrun]
      rfl
    · rw [hkept arr ?_, harray arr fun h => List.mem_cons_of_mem _ (h2 h)]
      by_cases harr : arr.sectionType = 2
      · exact .inl fun ht => hnot (by rw [ht]; exact h2 harr)
      · exact .inr harr

/-- The log of `fw_module_free`, as the heap and the sections give it. -/
def FwHeap.moduleUses (heap : FwHeap) (m : LoadedModule) : List (Use FwAddr) :=
  m.sections.zipIdx.flatMap (heap.nodeUses m) ++
    (heap.usesOf m .type ++ [.free .filedata, .free .module])

/-- `fw_module_free` returns when the arrays can be read. -/
theorem moduleFree_run (hleft : NodesLeft m heap m.sections.zipIdx heap)
    (htype : Readable (heap.array .type) m.typeCnt.toNat) (hdata : heap.filedata = .ptr .filedata) :
    ∃ heap', fwModuleFree m heap = ⟨heap.moduleUses m, .ok (⟨⟩, heap')⟩ := by
  obtain ⟨heap', hrun, hdone⟩ := forEach_run (fun _ _ _ => NodesLeft.round) hleft
  have harray : heap'.array .type = heap.array .type := hdone.array .type fun h => by cases h
  have htail :
      fwFreeArray .type m.typeCnt.toNat heap' = ⟨heap.usesOf m .type, .ok (⟨⟩, heap')⟩ := by
    rw [FwHeap.usesOf, ← harray]
    exact fwFreeArray_eq (by rw [harray]; exact htype)
  refine ⟨heap', ?_⟩
  rw [fwModuleFree, Logged.bind_eq hrun, Logged.bind_eq htail, Logged.get_bind_apply,
    hdone.filedata, hdata]
  rfl

/-! ## What is freed

The log is a list of uses, and which blocks it frees is a matter of counting arrays. -/

/-- The destructors of different section types free different arrays, and together those of their
types. -/
theorem flatMap_arraysOf_perm {types : List UInt8} (h : types.Nodup) :
    (types.flatMap arraysOf).Perm
      (FwArray.ofSections.filter fun arr => arr.sectionType ∈ types) := by
  induction types with
  | nil => simp
  | cons t types ih =>
    obtain ⟨hnot, hnodup⟩ := List.nodup_cons.mp h
    have hsplit := List.filter_append_perm (fun arr : FwArray => decide (arr.sectionType = t))
      (FwArray.ofSections.filter fun arr => arr.sectionType ∈ t :: types)
    rw [List.filter_filter, List.filter_filter] at hsplit
    rw [List.flatMap_cons]
    refine List.Perm.trans (List.Perm.append (List.Perm.of_eq ?_)
      ((ih hnodup).trans (List.Perm.of_eq ?_))) hsplit
    · refine List.filter_congr fun arr _ => ?_
      by_cases ht : arr.sectionType = t <;> simp [ht]
    · refine List.filter_congr fun arr _ => ?_
      by_cases ht : arr.sectionType = t
      · simp [ht, hnot]
      · simp [ht]

/-- The loop over the sections frees the sections, and the arrays of the destructors that are
set. -/
theorem freed_nodes (nodes : List (FwModuleSection × ℕ)) :
    (freed (nodes.flatMap (heap.nodeUses m))).Perm (nodes.map (fun node => .node node.2) ++
      ((freeTypes nodes).flatMap arraysOf).flatMap fun arr => freed (heap.usesOf m arr)) := by
  induction nodes with
  | nil => exact List.Perm.refl _
  | cons node nodes ih =>
    rw [List.flatMap_cons, freed_append, FwHeap.nodeUses, freed_touch, freed_append, List.map_cons]
    cases hfree : node.1.free with
    | false =>
      rw [freeTypes_cons_of_not hfree]
      exact ih.cons _
    | true =>
      rw [freeTypes_cons hfree, if_pos rfl, List.flatMap_cons, List.flatMap_append, freed_flatMap]
      refine (ih.append_left _).trans ?_
      rw [← List.append_assoc, ← List.append_assoc, List.append_assoc _ _ (nodes.map _)]
      exact List.perm_append_comm.append_right _

/-! ## The blocks of an array

A block knows its array, so two arrays have no block in common. -/

variable {m₀ : LoadedModule} {i j : ℕ} {a : FwAddr} {e : Use FwAddr}

/-- The array that a block belongs to, unless it is one of a section, of the file or of the module.
-/
def FwAddr.owner : FwAddr → Option FwArray
  | .array arr _ => some arr
  | .cell arr _ _ _ => some arr
  | _ => none

theorem cell_of_ptr_mem (h : .ptr a ∈ fwEntryCells m i arr j) : ∃ c, a = .cell arr i j c := by
  cases arr with
  | imports kind =>
    rw [fwEntryCells] at h
    by_cases hj : j < (m.imports kind).length
    · by_cases hkind : kind = .func
      · rw [if_pos hj, if_pos hkind] at h
        obtain h | h | h : _ ∨ _ ∨ _ := by simpa using h
        · exact ⟨0, h⟩
        · exact ⟨1, h⟩
        · exact ⟨2, h⟩
      · rw [if_pos hj, if_neg hkind] at h
        obtain h | h : _ ∨ _ := by simpa using h
        · exact ⟨1, h⟩
        · exact ⟨2, h⟩
    · rw [if_neg hj] at h
      simp at h
  | elems =>
    rw [fwEntryCells] at h
    split at h
    · exact ⟨0, by simpa using h⟩
    · simp at h
  | type => exact ⟨0, by simpa [fwEntryCells] using h⟩
  | funcs => exact ⟨0, by simpa [fwEntryCells] using h⟩
  | exports => exact ⟨0, by simpa [fwEntryCells] using h⟩
  | _ => simp [fwEntryCells] at h

/-- What is done to the blocks of an array is done to the array or to what an entry below the count
points to. -/
theorem addr_of_block_uses (h : e ∈ uses (some (fwArrayBlock m i arr)) n) :
    e.addr = .array arr i ∨ ∃ j < n, ∃ c, e.addr = .cell arr i j c ∧ .ptr e.addr ∈
      fwEntryCells m i arr j := by
  obtain ⟨b, hb, haddr | ⟨j, hj, cells, hcells, hptr⟩⟩ := addr_of_uses h
  · obtain rfl := Option.some.inj hb
    exact .inl haddr
  · obtain rfl := Option.some.inj hb
    simp only [fwArrayBlock, List.getElem?_map, Option.map_eq_some_iff] at hcells
    obtain ⟨j', hj', rfl⟩ := hcells
    obtain ⟨hlt, rfl⟩ := List.getElem?_eq_some_iff.mp hj'
    rw [List.getElem_range] at hptr
    obtain ⟨c, hc⟩ := cell_of_ptr_mem hptr
    exact .inr ⟨j, hj, c, hc, hptr⟩

/-- No two pointers of an array point to the same block. Every entry names its own blocks, by its
number and the number of the cell in it. -/
theorem nodup_addrs (m : LoadedModule) (i : ℕ) (arr : FwArray) :
    (fwArrayBlock m i arr).addrs.Nodup := by
  have htargets : targets (fwArrayBlock m i arr).entries =
      (List.range (arr.count m)).flatMap fun j =>
        (fwEntryCells m i arr j).filterMap Cell.target := by
    rw [targets, fwArrayBlock, ← List.flatMap_def, List.filterMap_flatMap]
  have hmem {j : ℕ} {a : FwAddr} (h : a ∈ (fwEntryCells m i arr j).filterMap Cell.target) :
      ∃ c, a = .cell arr i j c := by
    obtain ⟨c, hc, ha⟩ := List.mem_filterMap.mp h
    obtain rfl := target_eq_some.mp ha
    exact cell_of_ptr_mem hc
  rw [Block.addrs, htargets]
  refine List.nodup_cons.mpr ⟨fun h => ?_, List.nodup_flatMap.mpr ⟨fun j _ => ?_, ?_⟩⟩
  · obtain ⟨j, -, h⟩ := List.mem_flatMap.mp h
    obtain ⟨c, hc⟩ := hmem h
    cases hc
  · cases arr with
    | imports kind =>
      rw [fwEntryCells]
      split_ifs <;> simp [List.filterMap_cons, Cell.target]
    | elems =>
      rw [fwEntryCells]
      split <;> simp [List.filterMap_cons, Cell.target]
    | _ => simp [fwEntryCells, List.filterMap_cons, Cell.target]
  · refine List.nodup_range.imp fun {j j'} hne => ?_
    intro a ha ha'
    obtain ⟨c, rfl⟩ := hmem ha
    obtain ⟨c', hc'⟩ := hmem ha'
    cases hc'
    exact hne rfl

/-- Every array of the heap was allocated by a handler. -/
def FwHeap.Shaped (heap : FwHeap) : Prop :=
  ∀ arr b, heap.array arr = some b → ∃ i m₀, b = fwArrayBlock m₀ i arr

theorem owner_of_usesOf (hshape : heap.Shaped) (h : e ∈ heap.usesOf m arr) :
    e.addr.owner = some arr := by
  obtain ⟨b, hb, -⟩ := addr_of_uses h
  obtain ⟨i, m₀, rfl⟩ := hshape arr b hb
  rw [FwHeap.usesOf, hb] at h
  rcases addr_of_block_uses h with haddr | ⟨j, -, c, haddr, -⟩
  · rw [haddr]
    rfl
  · rw [haddr]
    rfl

theorem tidy_usesOf (hshape : heap.Shaped) (hread : Readable (heap.array arr) (arr.walked m)) :
    Tidy (heap.usesOf m arr) := by
  rw [FwHeap.usesOf]
  cases hb : heap.array arr with
  | none => exact List.Pairwise.nil
  | some b =>
    rw [hb] at hread
    obtain ⟨i, m₀, rfl⟩ := hshape arr b hb
    exact tidy_uses hread.1 (nodup_addrs m₀ i arr)

/-! ## The order of the uses

Nothing is used behind its `free` as long as no block comes up in two destructors. -/

theorem addr_of_nodeUses {node : FwModuleSection × ℕ} (hshape : heap.Shaped)
    (h : e ∈ heap.nodeUses m node) : e.addr = .node node.2 ∨
      node.1.free = true ∧ ∃ arr, arr ≠ .type ∧ arr.sectionType = node.1.type ∧
        e.addr.owner = some arr := by
  rcases List.mem_cons.mp h with rfl | h
  · exact .inl rfl
  · rcases List.mem_append.mp h with h | h
    · cases hfree : node.1.free with
      | false => simp [hfree] at h
      | true =>
        rw [hfree, if_pos rfl] at h
        obtain ⟨arr, harr, he⟩ := List.mem_flatMap.mp h
        obtain ⟨h1, ht⟩ := mem_arraysOf.mp harr
        exact .inr ⟨rfl, arr, h1, ht, owner_of_usesOf hshape he⟩
    · obtain rfl := List.mem_singleton.mp h
      exact .inl rfl

theorem tidy_nodeUses {node : FwModuleSection × ℕ} (hshape : heap.Shaped)
    (hread : node.1.free = true → ∀ arr ∈ arraysOf node.1.type,
      Readable (heap.array arr) (arr.walked m)) : Tidy (heap.nodeUses m node) := by
  have harrays : Tidy (if node.1.free then (arraysOf node.1.type).flatMap (heap.usesOf m)
      else []) := by
    cases hfree : node.1.free with
    | false => exact List.Pairwise.nil
    | true =>
      rw [if_pos rfl]
      refine tidy_flatMap (fun arr harr => tidy_usesOf hshape (hread hfree arr harr)) ?_
      have hnodup : (arraysOf node.1.type).Nodup := List.Nodup.filter _ (by decide)
      refine hnodup.imp fun hne e he e' he' heq => hne ?_
      have hown := owner_of_usesOf hshape he
      rw [heq, owner_of_usesOf hshape he'] at hown
      exact (Option.some.inj hown).symm
  refine List.Pairwise.cons (fun _ _ h => by cases h) (tidy_append.mpr ⟨harrays,
    List.pairwise_singleton _ _, fun a ha e he => ?_⟩)
  obtain rfl := List.mem_singleton.mp he
  cases hfree : node.1.free with
  | false => simp [hfree] at ha
  | true =>
    rw [hfree, if_pos rfl] at ha
    obtain ⟨arr, -, he⟩ := List.mem_flatMap.mp (mem_freed.mp ha)
    rintro rfl
    cases owner_of_usesOf hshape he

/-- The nodes use different blocks, when no destructor runs twice. A block that two rounds use would
be a node, which has its number, or belong to an array, which is freed with the sections of one type
only. -/
theorem tidy_nodes (hshape : heap.Shaped) (hleft : NodesLeft m heap m.sections.zipIdx heap) :
    Tidy (m.sections.zipIdx.flatMap (heap.nodeUses m)) := by
  have hread {node : FwModuleSection × ℕ} (hnode : node ∈ m.sections.zipIdx)
      (hfree : node.1.free = true) : node.1.type ∈ freeTypes m.sections.zipIdx :=
    List.mem_map_of_mem (List.mem_filter.mpr ⟨hnode, hfree⟩)
  refine tidy_flatMap (fun node hnode => tidy_nodeUses hshape fun hfree =>
    hleft.readable _ (hread hnode hfree)) ?_
  have hnum : m.sections.zipIdx.Pairwise fun node node' => node.2 ≠ node'.2 := by
    have hnodup : (m.sections.zipIdx.map Prod.snd).Nodup := by
      rw [List.zipIdx_map_snd]
      exact List.nodup_range'
    exact List.pairwise_map.mp hnodup
  have htypes : m.sections.zipIdx.Pairwise fun node node' =>
      node.1.free = true → node'.1.free = true → node.1.type ≠ node'.1.type :=
    List.pairwise_filter.mp (List.pairwise_map.mp hleft.nodup)
  refine (hnum.and htypes).imp fun {node node'} hne e he e' he' heq => ?_
  rcases addr_of_nodeUses hshape he with h | ⟨hfree, arr, -, ht, hown⟩
  · rcases addr_of_nodeUses hshape he' with h' | ⟨-, arr', -, -, hown'⟩
    · rw [h, h'] at heq
      exact hne.1 (FwAddr.node.inj heq)
    · rw [← heq, h] at hown'
      cases hown'
  · rcases addr_of_nodeUses hshape he' with h' | ⟨hfree', arr', -, ht', hown'⟩
    · rw [heq, h'] at hown
      cases hown
    · rw [heq, hown'] at hown
      obtain rfl := Option.some.inj hown
      exact hne.2 hfree hfree' (ht.symm.trans ht')

/-- The last uses are of blocks that belong to no array and are no node. -/
theorem addr_of_lastUses (h : e ∈ [Use.free .filedata, .free .module]) :
    e.addr.owner = none ∧ ∀ n, e.addr ≠ FwAddr.node n := by
  rcases List.mem_pair.mp h with rfl | rfl
  · exact ⟨rfl, fun _ h => by cases h⟩
  · exact ⟨rfl, fun _ h => by cases h⟩

/-- The uses behind the nodes are of blocks that no node uses. -/
theorem nodeUses_ne_tail (hshape : heap.Shaped) {node : FwModuleSection × ℕ} {e' : Use FwAddr}
    (h : e ∈ heap.nodeUses m node)
    (h' : e' ∈ heap.usesOf m .type ++ [.free .filedata, .free .module]) : e.addr ≠ e'.addr := by
  intro heq
  rcases addr_of_nodeUses hshape h with hnode | ⟨-, arr, h1, -, hown⟩
  · rw [hnode] at heq
    rcases List.mem_append.mp h' with h' | h'
    · have hown := owner_of_usesOf hshape h'
      rw [← heq] at hown
      cases hown
    · exact (addr_of_lastUses h').2 _ heq.symm
  · rw [heq] at hown
    rcases List.mem_append.mp h' with h' | h'
    · exact h1 (Option.some.inj (hown.symm.trans (owner_of_usesOf hshape h')))
    · cases (addr_of_lastUses h').1.symm.trans hown

/-- Nothing is used behind its `free`, when no destructor runs twice. -/
theorem tidy_moduleUses (hshape : heap.Shaped)
    (hleft : NodesLeft m heap m.sections.zipIdx heap)
    (htype : Readable (heap.array .type) (FwArray.type.walked m)) :
    Tidy (heap.moduleUses m) := by
  have hlast : Tidy [Use.free FwAddr.filedata, .free .module] :=
    List.Pairwise.cons (fun e he h => by cases List.mem_singleton.mp he; cases h)
      (List.pairwise_singleton _ _)
  refine tidy_append.mpr ⟨tidy_nodes hshape hleft,
    tidy_append.mpr ⟨tidy_usesOf hshape htype, hlast, ?_⟩, ?_⟩
  · intro a ha e he heq
    have hown := owner_of_usesOf hshape (mem_freed.mp ha)
    cases (addr_of_lastUses he).1.symm.trans ((congrArg FwAddr.owner heq).symm.trans hown)
  · intro a ha e he
    obtain ⟨node, -, hmem⟩ := List.mem_flatMap.mp (mem_freed.mp ha)
    exact nodeUses_ne_tail hshape hmem he

/-! ## Runs that return

Read backwards: a run that returned has read its arrays, so they could be read, and has done what
its log says. -/

/-- A heap that destructors may have left: the imports may be gone, and the rest is as it was. -/
structure Fewer (heap heap' : FwHeap) : Prop where
  /-- the bytes of the file -/
  filedata : heap'.filedata = heap.filedata
  /-- the arrays -/
  array : ∀ arr, heap'.array arr = heap.array arr ∨
    arr.sectionType = 2 ∧ heap'.array arr = none

theorem Fewer.refl (heap : FwHeap) : Fewer heap heap := ⟨rfl, fun _ => .inl rfl⟩

/-- A destructor that returned has read its array, and done to it what the log of the array says. -/
theorem Fewer.freeArray_ok (h : Fewer heap heap') {s : FwHeap}
    (hok : (fwFreeArray arr (arr.walked m) heap').res = .ok (⟨⟩, s)) :
    s = heap' ∧ (∀ e ∈ (fwFreeArray arr (arr.walked m) heap').log, e ∈ heap.usesOf m arr) ∧
      (arr.sectionType ≠ 2 → Readable (heap.array arr) (arr.walked m)) := by
  have hread := readable_of_freeArray hok
  rw [fwFreeArray_eq hread] at hok ⊢
  cases hok
  refine ⟨rfl, fun e he => ?_, fun h2 => ?_⟩
  · rw [FwHeap.usesOf]
    rcases h.array arr with harr | ⟨-, harr⟩
    · rwa [← harr]
    · rw [harr] at he
      cases he
  · rwa [← (h.array arr).resolve_right fun h' => h2 h'.1]

/-- The destructor of the imports that returned has freed them, kind by kind. It clears every array
after freeing it, so that a second run of it finds nothing to free. -/
theorem Fewer.importsFree_ok (h : Fewer heap heap') {s : FwHeap}
    (hok : (fwModuleSectionImportsFree m heap').res = .ok (⟨⟩, s)) :
    Fewer heap s ∧
      ∀ e ∈ (fwModuleSectionImportsFree m heap').log, ∃ arr, e ∈ heap.usesOf m arr := by
  have hround (kind : FwImportKind) (_ : kind ∈ FwImportKind.all) (s s' : FwHeap)
      (hs : Fewer heap s) (hok : (fwImportsFreeKind m kind s).res = .ok (⟨⟩, s')) :
      Fewer heap s' ∧ (∀ e ∈ (fwImportsFreeKind m kind s).log, ∃ arr, e ∈ heap.usesOf m arr) ∧
        True := by
    rw [fwImportsFreeKind] at hok ⊢
    obtain ⟨_, s₁, hfree, hset, hlog⟩ := Logged.bind_eq_ok hok
    obtain ⟨rfl, huses, -⟩ := @Fewer.freeArray_ok m heap s (.imports kind) hs s₁ hfree
    rw [Logged.get_bind_apply, Logged.set_apply] at hset hlog
    cases hset
    rw [hlog, List.append_nil]
    refine ⟨⟨hs.filedata, fun arr => ?_⟩, fun e he => ⟨_, huses e he⟩, trivial⟩
    by_cases harr : arr = .imports kind
    · subst harr
      exact .inr ⟨rfl, Function.update_self ..⟩
    · rcases hs.array arr with h | ⟨h2, h⟩
      · exact .inl ((Function.update_of_ne harr ..).trans h)
      · exact .inr ⟨h2, (Function.update_of_ne harr ..).trans h⟩
  obtain ⟨hs, hlog, -⟩ := forEach_ok hround h hok
  exact ⟨hs, hlog⟩

/-- The destructor of a section type that returned has used blocks of its arrays only. That of the
element segments has also read no indeterminate pointer, as it does when it walks over an empty
segment. -/
theorem Fewer.sectionFree_ok (h : Fewer heap heap') {s : FwHeap}
    (hok : (fwSectionFree m t heap').res = .ok (⟨⟩, s)) :
    Fewer heap s ∧ (∀ e ∈ (fwSectionFree m t heap').log, ∃ arr, e ∈ heap.usesOf m arr) ∧
      (t = 9 → Readable (heap.array .elems) (FwArray.elems.walked m)) := by
  have hsole {arr : FwArray} {t : UInt8} (ht : t = 9 → arr = .elems)
      (hok : (fwFreeArray arr (arr.walked m) heap').res = .ok (⟨⟩, s)) :
      Fewer heap s ∧ (∀ e ∈ (fwFreeArray arr (arr.walked m) heap').log,
        ∃ arr, e ∈ heap.usesOf m arr) ∧
        (t = 9 → Readable (heap.array .elems) (FwArray.elems.walked m)) := by
    obtain ⟨rfl, hlog, hread⟩ := h.freeArray_ok hok
    refine ⟨h, fun e he => ⟨arr, hlog e he⟩, fun h9 => ?_⟩
    obtain rfl := ht h9
    exact hread (by decide)
  unfold fwSectionFree at hok ⊢
  split at hok
  · obtain ⟨hs, hlog⟩ := h.importsFree_ok hok
    exact ⟨hs, hlog, fun h9 => by cases h9⟩
  · exact @hsole .funcs _ (by decide) hok
  · exact @hsole .tables _ (by decide) hok
  · exact @hsole .memories _ (by decide) hok
  · exact @hsole .globals _ (by decide) hok
  · exact @hsole .exports _ (by decide) hok
  · exact @hsole .elems _ (fun _ => rfl) hok
  · exact @hsole .datas _ (by decide) hok
  · cases hok

/-- What `fw_module_free` may do: use sections, and arrays, the bytes of the file and the module. -/
def FwHeap.Permits (heap : FwHeap) (m : LoadedModule) (e : Use FwAddr) : Prop :=
  (∃ i, e.addr = .node i) ∨ (∃ arr, e ∈ heap.usesOf m arr) ∨ e.addr = .filedata ∨ e.addr = .module

/-- One round of the loop over the sections, when it returned. It has used the node, and blocks of
the arrays of its type when it has the flag `free`. -/
theorem Fewer.freeNode_ok (h : Fewer heap heap') {node : FwModuleSection × ℕ} {s : FwHeap}
    (hok : (fwFreeNode m node heap').res = .ok (⟨⟩, s)) :
    Fewer heap s ∧ (∀ e ∈ (fwFreeNode m node heap').log, heap.Permits m e) ∧
      (node.1.free = true → node.1.type = 9 →
        Readable (heap.array .elems) (FwArray.elems.walked m)) := by
  rw [fwFreeNode, Logged.emit_bind_apply] at hok ⊢
  cases hfree : node.1.free with
  | false =>
    rw [hfree] at hok
    cases hok
    refine ⟨h, fun e he => .inl ⟨node.2, ?_⟩, fun h => by cases h⟩
    rcases List.mem_cons.mp he with rfl | he
    · rfl
    · cases List.mem_singleton.mp he
      rfl
  | true =>
    rw [hfree, if_pos rfl] at hok
    rw [if_pos rfl]
    obtain ⟨_, s₁, hsec, hemit, hlog⟩ := Logged.bind_eq_ok hok
    cases hemit
    obtain ⟨hs, huses, hread⟩ := h.sectionFree_ok hsec
    refine ⟨hs, ?_, fun _ => hread⟩
    rw [hlog]
    refine List.forall_mem_cons.mpr ⟨.inl ⟨node.2, rfl⟩, List.forall_mem_append.mpr
      ⟨fun e he => .inr (.inl (huses e he)), fun e he => .inl ⟨node.2, ?_⟩⟩⟩
    cases List.mem_singleton.mp he
    rfl

/-- When `fw_module_free` returns, it has used what the module reaches only, and the destructor of
the element segments could read them. This is for the direction in which nothing is known of the
arrays beforehand. -/
theorem moduleFree_ok (hdata : heap.filedata = .ptr .filedata)
    (hok : (fwModuleFree m heap).res = .ok (⟨⟩, heap')) :
    (∀ e ∈ (fwModuleFree m heap).log, heap.Permits m e) ∧
      ∀ node ∈ m.sections.zipIdx, node.1.free = true → node.1.type = 9 →
        Readable (heap.array .elems) (FwArray.elems.walked m) := by
  rw [fwModuleFree] at hok ⊢
  obtain ⟨_, s₁, hnodes, htail, hlog⟩ := Logged.bind_eq_ok hok
  obtain ⟨_, s₂, htype, hrest, hlog'⟩ := Logged.bind_eq_ok htail
  obtain ⟨hs, huses, hread⟩ := forEach_ok (fun node _ s s' hs hok =>
    @Fewer.freeNode_ok m heap s hs node s' hok) (Fewer.refl heap) hnodes
  obtain ⟨rfl, huses', -⟩ := @Fewer.freeArray_ok m heap s₁ .type hs s₂ htype
  refine ⟨?_, hread⟩
  rw [hlog, hlog', Logged.get_bind_apply, hs.filedata, hdata]
  refine List.forall_mem_append.mpr ⟨huses, List.forall_mem_append.mpr
    ⟨fun e he => .inr (.inl ⟨.type, huses' e he⟩), ?_⟩⟩
  exact List.forall_mem_cons.mpr ⟨.inr (.inr (.inl rfl)),
    List.forall_mem_singleton.mpr (.inr (.inr (.inr rfl)))⟩

end FastWasm
