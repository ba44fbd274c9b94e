import FastWasm.Vectors

/-!
# Limits of tables and memories

Tables come back from their encodings (`tableSection_loads`). Memories, whose limits are encoded
alike, never do: the handler gives up as soon as it has an array for them, so that it returns
`FW_OK` for the empty vector only (`limits_alike_iff`).

The limits of a table and of a memory have the same encoding, a flag, a minimum and, where the flag
says so, a maximum; a table has the byte of its element type in front. The two sections may lie in
different memories and be padded in different ways. An entry without a maximum may have any in its
field, since what the source puts there is not a maximum of the format.
-/

namespace FastWasm

open Logged (Fallible Part)
open Logged.Fallible
open Leb128

variable {mem : Mem} {s : LoadState} {limits : List (UInt32 × Option UInt32)} {bs : List UInt8}

/-! ## Tables

A table is a byte for the type of its elements and limits, and the handler reads all of it. -/

/-- The encoding of a table: the element type and the limits. -/
def EncodesTable (limits : UInt32 × Option UInt32) (bs : List UInt8) : Prop :=
  ∃ ls, EncodesLimits limits.1 limits.2 ls ∧ bs = [0x70] ++ ls

/-- The entry has the limits; where there is no maximum, it may have any. -/
def StoredTable (limits : UInt32 × Option UInt32) (entry : FwModuleTable) : Prop :=
  entry.min = limits.1 ∧ ∀ max ∈ limits.2, entry.max = max

theorem readsTo_tableEntry {limits : UInt32 × Option UInt32} (h : EncodesTable limits bs) :
    ReadsTo mem (fwTableEntry mem) bs (StoredTable limits) := by
  obtain ⟨ls, hls, rfl⟩ := h
  have htype : ReadsAs mem (fwStrLebGetu8 mem) [0x70] 0x70 := ReadsAs.getu8 (by decide)
  have hcheck : ReadsAs mem (check ((0x70 : UInt8) = 0x70)) [] ⟨⟩ :=
    fun str _ _ => runs_check.mpr ⟨rfl, rfl⟩
  have hlimits : ReadsAs mem (do
      let limits ← fwStrLebGetu32 mem
      let min ← fwStrLebGetu32 mem
      let max ← fwLimitsMax mem limits 0x100
      pure (FwModuleTable.mk 0 min max)) ls _ := readsAs_limits (FwModuleTable.mk 0) hls
  have hentry : ReadsAs mem (fwTableEntry mem) ([0x70] ++ ([] ++ ls)) _ :=
    htype.bind (hcheck.bind hlimits)
  refine fun str hm hlast => ⟨_, hentry str hm hlast, rfl, fun max hmax => ?_⟩
  rw [Option.mem_def] at hmax
  rw [hmax, Option.getD_some]

/-- Tables come back from their encoding, in any state of the module. -/
theorem tableSection_loads (hbs : Vec EncodesTable limits bs) (hpay : Payload mem s.sec.data bs) :
    ∃ s', Runs (fwModuleSectionTable mem) s ⟨⟩ s' ∧
      VecLoaded tableCntPart tablesPart StoredTable limits s s' :=
  vecSection_loads ⟨fun _ _ => rfl, fun _ _ => rfl, fun _ _ _ => rfl⟩
    (fun _ _ _ => readsTo_tableEntry) hbs hpay

/-! ## Memories

The handler allocates an array and takes the allocation for a failure, so the entries are never
read. -/

/-- The encoding of a memory: the limits, and nothing else. -/
def EncodesMemory (limits : UInt32 × Option UInt32) (bs : List UInt8) : Prop :=
  EncodesLimits limits.1 limits.2 bs

/-- The entry has the limits; where there is no maximum, it may have any. -/
def StoredMemory (limits : UInt32 × Option UInt32) (entry : FwModuleMemory) : Prop :=
  entry.min = limits.1 ∧ ∀ max ∈ limits.2, entry.max = max

/-- The handler does not return `FW_OK` where there are memories. -/
theorem memorySection_empty (hbs : Vec EncodesMemory limits bs) (hpay : Payload mem s.sec.data bs)
    {s' : LoadState} (hrun : Runs (fwModuleSectionMemory mem) s ⟨⟩ s') : limits = [] := by
  obtain ⟨d, es, hn, hlen, -, -⟩ := hpay.count hbs
  obtain ⟨d', hzero, -⟩ := runs_sectionMemory.mp hrun
  exact eq_nil_of_count hlen (hn.unique hzero).1

/-- It returns `FW_OK` where there are none, for then it allocates nothing. -/
theorem memorySection_loads (hbs : Vec EncodesMemory [] bs) (hpay : Payload mem s.sec.data bs) :
    ∃ s', Runs (fwModuleSectionMemory mem) s ⟨⟩ s' ∧
      VecLoaded memoryCntPart memoriesPart StoredMemory [] s s' := by
  obtain ⟨d, es, hn, -, hes, hd⟩ := hpay.count hbs
  obtain rfl : es = [] := by cases hes; rfl
  have hend : d.pos = d.last := hd.last.symm
  exact ⟨_, runs_sectionMemory.mpr ⟨d, hn, hend, rfl⟩, hend, fun h => congrArg UInt32.toNat (h rfl),
    .nil⟩

/-! ## Both

The same limits, encoded as tables and as memories. -/

/-- Limits come back from both encodings if and only if there are none. The payload of the
table section is an encoding of the limits (`hbs`, `hpay`) and so is that of the memory section
(`hbs'`, `hpay'`), in whatever state the handlers are called. -/
theorem limits_alike_iff {mem' : Mem} {s' : LoadState} {bs' : List UInt8}
    (hbs : Vec EncodesTable limits bs) (hpay : Payload mem s.sec.data bs)
    (hbs' : Vec EncodesMemory limits bs') (hpay' : Payload mem' s'.sec.data bs') :
    ((∃ t, Runs (fwModuleSectionTable mem) s ⟨⟩ t ∧
        VecLoaded tableCntPart tablesPart StoredTable limits s t) ∧
      ∃ t, Runs (fwModuleSectionMemory mem') s' ⟨⟩ t ∧
        VecLoaded memoryCntPart memoriesPart StoredMemory limits s' t) ↔ limits = [] := by
  refine ⟨?_, ?_⟩
  · rintro ⟨-, t, hrun, -⟩
    exact memorySection_empty hbs' hpay' hrun
  · rintro rfl
    exact ⟨tableSection_loads hbs hpay, memorySection_loads hbs' hpay'⟩

/-- The two empty vectors, of a byte each. -/
theorem noLimits_alike :
    (∃ t, Runs (fwModuleSectionTable (memOf [0])) (loadStateOf 4 [0]) ⟨⟩ t ∧
        VecLoaded tableCntPart tablesPart StoredTable [] (loadStateOf 4 [0]) t) ∧
      ∃ t, Runs (fwModuleSectionMemory (memOf [0])) (loadStateOf 5 [0]) ⟨⟩ t ∧
        VecLoaded memoryCntPart memoriesPart StoredMemory [] (loadStateOf 5 [0]) t :=
  (limits_alike_iff ⟨[0], [], by decide, .nil, rfl⟩ (payload_memOf ..)
    ⟨[0], [], by decide, .nil, rfl⟩ (payload_memOf ..)).mpr rfl

/-- One memory of at least one page is not loaded, while one table of the same limits is. -/
theorem oneMemory_not_alike :
    Vec EncodesTable [(1, none)] [1, 0x70, 0, 1] ∧ Vec EncodesMemory [(1, none)] [1, 0, 1] ∧
      (∃ t, Runs (fwModuleSectionTable (memOf [1, 0x70, 0, 1])) (loadStateOf 4 [1, 0x70, 0, 1])
        ⟨⟩ t) ∧
      ¬ ∃ t, Runs (fwModuleSectionMemory (memOf [1, 0, 1])) (loadStateOf 5 [1, 0, 1]) ⟨⟩ t := by
  have hlimits : EncodesLimits 1 none [0, 1] := ⟨[1], by decide, rfl⟩
  have hone : EncodesTable (1, none) [0x70, 0, 1] := ⟨[0, 1], hlimits, rfl⟩
  have htable : Vec EncodesTable [(1, none)] [1, 0x70, 0, 1] :=
    ⟨[1], _, by decide, .cons hone .nil, rfl⟩
  have hmemory : Vec EncodesMemory [(1, none)] [1, 0, 1] :=
    ⟨[1], _, by decide, .cons (show EncodesMemory (1, none) [0, 1] from hlimits) .nil, rfl⟩
  obtain ⟨t, hrun, -⟩ := tableSection_loads htable (payload_memOf 4 _)
  refine ⟨htable, hmemory, ⟨t, hrun⟩, ?_⟩
  rintro ⟨t', hrun'⟩
  exact absurd (memorySection_empty hmemory (payload_memOf ..) hrun') (by decide)

end FastWasm
