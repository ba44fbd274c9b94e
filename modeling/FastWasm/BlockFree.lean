import FastWasm.BlockLists
import FastWasm.Unlink
import FastWasm.Walk

/-!
# The release of block entries (`fw_module_section_func_free`)

The destructor of the functions takes the list `blk` of each function apart and frees its entries.
It does not look at `blktmp`: an entry whose `end` the validator never met stays allocated.

An entry is in one of the two lists from the moment it is allocated, since the handlers move it from
one to the other and drop it nowhere. An `else` that went astray does not change that. It poisons
the pending `if`s, which are a list of other links, and it overwrites `blk.prev`, by which the
destructor does not go; but an entry that is closed behind it cannot be linked any more and the walk
stops there.
-/

namespace FastWasm

open Logged Ownership

/-! ## Every entry is in a list

An entry is allocated at the opening of a block and put into `blktmp` at once. The `end` of the
block takes it out and puts it into `blk`, where it stays. -/

/-- Every allocated entry is open or closed: there is none that only the list of pending `if`s
knows. -/
def FuncBlks.Placed (s : FuncBlks) : Prop := ∀ id < s.fresh, id ∈ s.blk ∨ id ∈ s.blktmp

section Placed

variable {mem : Mem} {code : UInt8} {body body' : FwStr} {s s' : FuncBlks} {fn : ConsumeFn}

theorem FuncBlks.Placed.openBlk (h : s.Placed) : s.openBlk.Placed := by
  intro id hid
  rcases Nat.lt_succ_iff_lt_or_eq.mp hid with hid | rfl
  · exact (h id hid).imp_right (List.mem_append_left _)
  · exact .inr (List.mem_append_right _ List.mem_cons_self)

theorem FuncBlks.Placed.closeBlk {blk pos : ℕ} (h : s.Placed)
    (hlast : s.blktmp.getLast? = some blk) : (s.closeBlk blk pos).Placed := by
  obtain ⟨ids, hids⟩ := List.getLast?_eq_some_iff.mp hlast
  intro id hid
  rcases h id hid with hmem | hmem
  · exact .inl (List.mem_append_left _ hmem)
  · rw [hids] at hmem
    rcases List.mem_append.mp hmem with hmem | hmem
    · refine .inr ?_
      change id ∈ s.blktmp.dropLast
      rwa [hids, List.dropLast_concat]
    · rw [List.mem_singleton.mp hmem]
      exact .inl (List.mem_append_right _ List.mem_cons_self)

end Placed

/-! ## The loop -/

namespace BlkAddr

/-- The block that a list head lies in: `none` is the array of functions, which has the three list
heads of a function, and the poison lies in no block. -/
def owner : BlkAddr → Option (Option ℕ)
  | blk | blktmp | iftmp => some none
  | node id | ifnode id => some (some id)
  | null | poison1 | poison2 | byte _ => none

/-- The blocks that are freed with an entry of `blk`: the one that its list head lies in. -/
def blocks (a : BlkAddr) : List (Option ℕ) := (a.nodeEntry.map some).toList

end BlkAddr

namespace BlockHeap

variable {mem : Mem} {body : FwStr} {heap : BlockHeap} {s : FuncBlks}

end BlockHeap

end FastWasm
