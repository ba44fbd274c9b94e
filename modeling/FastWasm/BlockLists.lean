import FastWasm.Consume
import FastWasm.LinkedList
import FastWasm.Refine

/-!
# The block lists, as pointers (`core/fw_list.h`, `instr/fw_instr.c`)

The lists `blk`, `blktmp` and `iftmp` of a function are three list heads in it, and a block entry
has two list heads of its own: `node`, which is in `blktmp` and then in `blk`, and `ifnode`, which
is in `iftmp`. The validator is written here over the pointers. It does the same as the one over
lists of addresses, and what it leaves behind is searched with the same results.

The three list heads lie one behind the other in `fw_module_func_t` (`blktmp`, `iftmp`, `blk`), as
`node`, `ifnode`, `start` and `els` do in a block entry. So when `list_entry` is applied to the head
of `iftmp`, because that list is empty, the entry it gives has `iftmp` for its `ifnode` and
`blk.prev` for its `els`. What is written there is an address of the bytes of the file.

The relation between pointers and lists (`Represents`) therefore has two cases. Before an `else`
goes astray there are three circular lists. Behind one the ring of `iftmp` is poisoned and `blk` can
be read forwards only, which is enough for a search and for the destructor; and a store through one
of the damaged pointers is a fault on both sides. Each handler is refined step by step, with what
one store does to the relation as a lemma of its own, and the walk follows by induction on its
rounds.
-/

namespace FastWasm

open Logged

/-! ## The heap

The addresses are those of list heads, and two kinds of address where none is: `NULL` and the poison
of `list_del`. What an `else` that went astray stores into `blk.prev` is the address of a byte of
the file, so there is a constructor for that as well, and a store through it is a fault of its own.
-/

/-- The address of a list head of a function, or of one of its block entries. Pointers to something
else do not occur, save the one that an `else` without an `if` stores. -/
inductive BlkAddr where
  /-- `NULL` -/
  | null
  /-- `LIST_POISON1` -/
  | poison1
  /-- `LIST_POISON2` -/
  | poison2
  /-- `&func->blk` -/
  | blk
  /-- `&func->blktmp` -/
  | blktmp
  /-- `&func->iftmp` -/
  | iftmp
  /-- `&blk->node` of an entry -/
  | node (id : ℕ)
  /-- `&blk->ifnode` of an entry -/
  | ifnode (id : ℕ)
  /-- a byte of the file -/
  | byte (pos : ℕ)
  deriving DecidableEq, Repr

namespace BlkAddr

/-- `list_entry(ptr, fw_module_func_block_t, node)`, where there is an entry: at the addresses of
its list head in `blktmp` and `blk`. -/
def nodeEntry : BlkAddr → Option ℕ
  | node id => some id
  | _ => none

/-- What a store to a list head at this address does, where none is there. -/
def fault : BlkAddr → Option Fault
  | null | poison1 | poison2 => some .badPtr
  | byte _ => some .overBytes
  | blk | blktmp | iftmp | node _ | ifnode _ => none

end BlkAddr

/-- The block entries of a function and their list heads. The entries are counted, and a new one has
the next number for its address. -/
structure BlockHeap where
  /-- the list heads -/
  links : Links BlkAddr
  /-- the entry at an address -/
  entry : ℕ → FwModuleFuncBlock
  /-- the next address to allocate -/
  fresh : ℕ

namespace BlockHeap

/-- A step of the validator, over the pointers. It logs the opcodes that are fetched. -/
abbrev Walk (α : Type) : Type := Logged ℕ Halt BlockHeap α

/-- The list heads of a function, after `INIT_LIST_HEAD` of each: three rings of one element. Those
of entries that are not allocated are `NULL`. -/
def init : BlockHeap where
  links := ((Links.initListHead .blk ⟨fun _ => .null, fun _ => .null⟩).initListHead .blktmp
    ).initListHead .iftmp
  entry _ := .zero
  fresh := 0

/-- `fw_calloc` of an entry, whose pointers are `NULL` as those of every entry not yet allocated. -/
def calloc (heap : BlockHeap) : BlockHeap :=
  { heap with entry := Function.update heap.entry heap.fresh .zero, fresh := heap.fresh + 1 }

/-- Overwrite the entry at an address, and leave the pointers as they are. The boundaries of a block
are no list heads. -/
def setEntry (heap : BlockHeap) (id : ℕ) (b : FwModuleFuncBlock) : BlockHeap :=
  { heap with entry := Function.update heap.entry id b }

/-- Change pointers, and leave the entries as they are. -/
def relink (heap : BlockHeap) (f : Links BlkAddr → Links BlkAddr) : BlockHeap :=
  { heap with links := f heap.links }

/-- `list_add_tail`, which stores to `head->prev->next`. That store is the only one that can go
wrong, so it is looked at before anything is changed. -/
def listAddTail (new head : BlkAddr) : Walk PUnit := do
  let heap ← get
  match (heap.links.prev head).fault with
  | some fault => halt (.fault fault)
  | none => set (heap.relink (Links.listAddTail new head))

/-- `list_del`: the neighbours are linked with each other, and the element is poisoned. -/
def del (entry : BlkAddr) (l : Links BlkAddr) : Links BlkAddr :=
  l.listDel .poison1 .poison2 entry

/-! ## The handlers

The same handlers as those over lists of addresses, with the macros of `fw_list.h` in their places.
Each reads its immediates first and touches the lists behind that. -/

/-- A handler that reads one number; `onErr` is what it returns at `str_err`. It touches no list. -/
def fwInstrConsumeLeb (mem : Mem) (maxbit : ℕ) (onErr : Status) (body : FwStr) :
    Walk (Status × FwStr) :=
  match fwStrLebGetu mem body maxbit with
  | .hang => halt .hang
  | .strErr => pure (onErr, body)
  | .got _ body => pure (.ok, body)

/-- `fw_instr_consume_brtbl`: a count, that many labels and the default. The numbers are read and
dropped. -/
def fwInstrConsumeBrtbl (mem : Mem) (body : FwStr) : Walk (Status × FwStr) :=
  match fwStrLebGetu mem body 32 with
  | .hang => halt .hang
  | .strErr => pure (.ok, body)
  | .got blknum body =>
    match fwInstrConsumeBrtblLoop mem blknum.toUInt32.toNat body with
    | none => halt .hang
    | some (false, body) => pure (.ok, body)
    | some (true, body) => fwInstrConsumeLeb mem 32 .ok body

/-- `fw_instr_consume_block`. The entry is appended to `blktmp` before its block type is read. -/
def fwInstrConsumeBlock (mem : Mem) (code : UInt8) (body : FwStr) : Walk (Status × FwStr) := do
  let heap ← get
  let blk := heap.fresh
  set (heap.calloc.relink (Links.initListHead (.node blk)))
  listAddTail (.node blk) .blktmp
  let (status, body) ← fwInstrConsumeLeb mem 32 .err body
  match status with
  | .err => pure (.err, body)
  | .ok => do
    let heap ← get
    set (heap.setEntry blk { heap.entry blk with start := some body.pos, type := code })
    pure (.ok, body)

/-- `fw_instr_consume_if`, which goes through `fw_instr_consume_block` and appends the entry that is
last in `blktmp` to `iftmp`. -/
def fwInstrConsumeIf (mem : Mem) (code : UInt8) (body : FwStr) : Walk (Status × FwStr) := do
  let (status, body) ← fwInstrConsumeBlock mem code body
  match status with
  | .err => pure (.err, body)
  | .ok => do
    let heap ← get
    match (heap.links.prev .blktmp).nodeEntry with
    | none => halt (.fault .badPtr)
    | some blk => do
      set (heap.relink (Links.initListHead (.ifnode blk)))
      listAddTail (.ifnode blk) .iftmp
      pure (.ok, body)

/-- `fw_instr_consume_else`. The entry is that of `iftmp.prev`, whatever it points to: with an empty
list it is the head itself. -/
def fwInstrConsumeElse (body : FwStr) : Walk (Status × FwStr) := do
  let heap ← get
  match heap.links.prev .iftmp with
  | .ifnode blk => do
    set ((heap.relink (del (.ifnode blk))).setEntry blk
      { heap.entry blk with els := some body.pos })
    pure (.ok, body)
  -- an empty list: the entry at `&func->blktmp`, whose `els` is `func->blk.prev`
  | .iftmp => do
    set (heap.relink fun l => (del .iftmp l).setPrev .blk (.byte body.pos))
    pure (.ok, body)
  | _ => halt (.fault .badPtr)

/-- `fw_instr_consume_end`, with `fw_instr_insert_blk`. The last open block gets its end, and an
`els` unless an `else` has set one, and goes to `blk`. With no block open it is the end of the
function, and the status says whether that is where the body ends. -/
def fwInstrConsumeEnd (body : FwStr) : Walk (Status × FwStr) := do
  let heap ← get
  if heap.links.listEmpty .blktmp then
    if body.pos ≠ body.last then pure (.err, body) else pure (.ok, body)
  else
    match (heap.links.prev .blktmp).nodeEntry with
    | none => halt (.fault .badPtr)
    | some blk => do
      let b := heap.entry blk
      set ((heap.relink (del (.node blk))).setEntry blk
        { b with fin := some body.pos, els := if b.els = none then some body.pos else b.els })
      listAddTail (.node blk) .blk
      pure (.ok, body)

/-- A call through the `consume` pointer of a row. The row's opcode is passed on to the handlers
that store it. -/
def consume (mem : Mem) (code : UInt8) : ConsumeFn → FwStr → Walk (Status × FwStr)
  | .none_ => fun body => pure (.ok, body)
  | .c32 => fwInstrConsumeLeb mem 32 .ok
  | .c64 => fwInstrConsumeLeb mem 64 .ok
  | .brtbl => fwInstrConsumeBrtbl mem
  | .block => fwInstrConsumeBlock mem code
  | .if_ => fwInstrConsumeIf mem code
  | .else_ => fwInstrConsumeElse
  | .end_ => fwInstrConsumeEnd

/-- The loop of `fw_module_validate_inst`, with a bound on its rounds that the length of the body
does not reach. -/
def fwModuleValidateLoop (mem : Mem) : ℕ → FwStr → Walk (Option FwStr)
  | 0, _ => halt .fuel
  | n + 1, body =>
    if body.pos < body.last then
      match fwStrGet8 mem body with
      | none => pure none
      | some (opcode, next) => do
        emit body.pos
        match fwGetInstr opcode with
        | none => fwModuleValidateLoop mem n next
        | some instr =>
          match instr.consume with
          | none => halt (.fault .nullHandler)
          | some fn => do
            let (_, next) ← consume mem instr.code fn next
            fwModuleValidateLoop mem n next
    else pure (some body)

/-- `fw_module_validate_inst`: opcodes are fetched and their handlers called, as long as there are
bytes. The status is `FW_OK` at each of its labels. -/
def fwModuleValidateInst (mem : Mem) (body : FwStr) : Walk Status := do
  match ← fwModuleValidateLoop mem (body.last - body.pos + 1) body with
  | none => pure .ok
  | some next => if next.pos ≠ body.last then pure .ok else pure .ok

/-- `fw_instr_find_blk`. The list is not longer than the number of entries, which bounds the search;
a list that does not come back to its head in that many steps never does. -/
def fwInstrFindBlk (heap : BlockHeap) (start : ℕ) : Except Halt (Option FwModuleFuncBlock) :=
  let starts (a : BlkAddr) : Bool :=
    a.nodeEntry.elim false fun id => (heap.entry id).start = some start
  match heap.links.listFindFrom .blk starts (heap.fresh + 1) (heap.links.next .blk) with
  | none => .error .fuel
  | some pos => .ok ((pos.bind BlkAddr.nodeEntry).map heap.entry)

/-! ## What the pointers represent

One lemma for each thing that a handler does to the lists: a new entry is opened, an open block
becomes a pending `if`, a pending `if` is dropped, an `else` goes astray, the last open block is
taken off, and a block is closed. Which lists have which elements in common is needed at every step,
since a store to one list head must not be seen in another list. -/

/-- The front of the lists: all three go round, or an `else` has gone astray. Then `iftmp` is
poisoned, no `if` is pending any more, and `blk` can only be read forwards. -/
def Front (heap : BlockHeap) (s : FuncBlks) : Prop :=
  match s.stray with
  | none => heap.links.Ring .blk (s.blk.map .node) ∧ heap.links.Ring .iftmp (s.iftmp.map .ifnode)
  | some pos => heap.links.prev .blk = .byte pos ∧ heap.links.prev .iftmp = .poison2 ∧ s.iftmp = []

/-- The three lists, and the entries that they link. Every block is in one of the lists of blocks at
most, and its address was allocated. -/
structure Represents (heap : BlockHeap) (s : FuncBlks) : Prop where
  /-- the closed blocks, read forwards -/
  blk : heap.links.Ahead .blk (s.blk.map .node)
  /-- the open blocks -/
  blktmp : heap.links.Ring .blktmp (s.blktmp.map .node)
  /-- the pending `if` blocks -/
  front : heap.Front s
  /-- no block is open and closed -/
  apart : ∀ id ∈ s.blktmp, id ∉ s.blk
  /-- the entries were allocated -/
  lt : ∀ id, id ∈ s.blk ∨ id ∈ s.blktmp ∨ id ∈ s.iftmp → id < s.fresh
  /-- the entries -/
  entry : heap.entry = s.entry
  /-- the number of entries -/
  fresh : heap.fresh = s.fresh

section Lists

variable {ids ids' : List ℕ} {id : ℕ}

theorem node_mem : BlkAddr.node id ∈ ids.map BlkAddr.node ↔ id ∈ ids :=
  List.mem_map_of_injective fun _ _ => BlkAddr.node.inj

theorem ifnode_mem : BlkAddr.ifnode id ∈ ids.map BlkAddr.ifnode ↔ id ∈ ids :=
  List.mem_map_of_injective fun _ _ => BlkAddr.ifnode.inj

end Lists

section Front

variable {heap : BlockHeap} {s : FuncBlks}

theorem front_none (h : s.stray = none) : heap.Front s ↔
    heap.links.Ring .blk (s.blk.map .node) ∧ heap.links.Ring .iftmp (s.iftmp.map .ifnode) := by
  rw [Front, h]

theorem front_some {pos : ℕ} (h : s.stray = some pos) : heap.Front s ↔
    heap.links.prev .blk = .byte pos ∧ heap.links.prev .iftmp = .poison2 ∧ s.iftmp = [] := by
  rw [Front, h]

/-- Before an `else` goes astray, three circular lists are enough. -/
theorem Represents.of_rings (hstray : s.stray = none)
    (hblk : heap.links.Ring .blk (s.blk.map .node))
    (htmp : heap.links.Ring .blktmp (s.blktmp.map .node))
    (hif : heap.links.Ring .iftmp (s.iftmp.map .ifnode)) (hapart : ∀ id ∈ s.blktmp, id ∉ s.blk)
    (hlt : ∀ id, id ∈ s.blk ∨ id ∈ s.blktmp ∨ id ∈ s.iftmp → id < s.fresh)
    (hentry : heap.entry = s.entry) (hfresh : heap.fresh = s.fresh) : heap.Represents s :=
  ⟨hblk.ahead, htmp, (front_none hstray).mpr ⟨hblk, hif⟩, hapart, hlt, hentry, hfresh⟩

end Front

theorem represents_init : init.Represents .init :=
  .of_rings rfl
    (((Links.ring_initListHead _ _).initListHead_apart (by decide)).initListHead_apart (by decide))
    ((Links.ring_initListHead _ _).initListHead_apart (by decide)) (Links.ring_initListHead _ _)
    (fun _ h => by cases h) (fun _ h => by rcases h with h | h | h <;> cases h) rfl rfl

section Operations

variable {heap : BlockHeap} {s : FuncBlks} {id : ℕ}

/-- The lists of open and of closed blocks have nothing in common. -/
theorem Represents.blk_apart (h : heap.Represents s) :
    List.Disjoint (BlkAddr.blk :: s.blk.map .node) (BlkAddr.blktmp :: s.blktmp.map .node) := by
  have hdisj : List.Disjoint (s.blk.map BlkAddr.node) (s.blktmp.map BlkAddr.node) := by
    intro a ha ha'
    obtain ⟨id, hid, rfl⟩ := List.mem_map.mp ha
    exact h.apart id (node_mem.mp ha') hid
  simpa using hdisj

/-- The list of pending `if` blocks has list heads of its own. -/
theorem iftmp_apart {ids ids' : List ℕ} {head : BlkAddr} (hhead : head = .blk ∨ head = .blktmp) :
    List.Disjoint (BlkAddr.iftmp :: ids.map .ifnode) (head :: ids'.map .node) := by
  rcases hhead with rfl | rfl <;> simp [List.Disjoint]

/-- The list heads of an entry not yet allocated are in no list. -/
theorem Represents.fresh_not_mem (h : heap.Represents s) :
    BlkAddr.node heap.fresh ∉ BlkAddr.blk :: s.blk.map .node ∧
      BlkAddr.node heap.fresh ∉ BlkAddr.blktmp :: s.blktmp.map .node := by
  rw [h.fresh]
  refine ⟨fun hmem => ?_, fun hmem => ?_⟩
  · rcases List.mem_cons.mp hmem with he | hmem
    · cases he
    · exact lt_irrefl _ (h.lt _ (.inl (node_mem.mp hmem)))
  · rcases List.mem_cons.mp hmem with he | hmem
    · cases he
    · exact lt_irrefl _ (h.lt _ (.inr (.inl (node_mem.mp hmem))))

theorem Represents.setEntry (h : heap.Represents s) (id : ℕ) (b : FwModuleFuncBlock) :
    (heap.setEntry id b).Represents (s.setEntry id b) :=
  ⟨h.blk, h.blktmp, h.front, h.apart, h.lt, by
    rw [BlockHeap.setEntry, FuncBlks.setEntry, h.entry], h.fresh⟩

/-- The links behind the opening of an entry: its list head for `blktmp` is set up and appended
there. -/
def opened (heap : BlockHeap) : BlockHeap :=
  (heap.calloc.relink (Links.initListHead (.node heap.fresh))).relink
    (Links.listAddTail (.node heap.fresh) .blktmp)

/-- A new entry is opened, at an address that no list has yet. Only the new list head and the end of
the list of open blocks are written to, so the closed blocks, the pending `if`s and what a stray
`else` has left behind stay as they are. -/
theorem Represents.openBlk (h : heap.Represents s) : heap.opened.Represents s.openBlk := by
  obtain ⟨hblk, htmp⟩ := h.fresh_not_mem
  have hring := h.blktmp.initListHead_apart htmp
  -- the opening writes to the new entry and to the list of open blocks
  have hother (a : BlkAddr) (hnew : a ≠ .node heap.fresh)
      (ha : a ∉ BlkAddr.blktmp :: s.blktmp.map .node) :
      heap.opened.links.next a = heap.links.next a ∧
        heap.opened.links.prev a = heap.links.prev a := by
    obtain ⟨hn, hp⟩ := @Links.initListHead_of_ne _ _ heap.links (.node heap.fresh) a hnew
    obtain ⟨hn', hp'⟩ := Links.listAddTail_of_ne (l := heap.links.initListHead (.node heap.fresh))
      (x := a) hnew (fun e => ha (e ▸ List.mem_cons_self)) fun e => ha (e ▸ hring.prev_mem)
    exact ⟨hn'.trans hn, hp'.trans hp⟩
  have hblk' (a : BlkAddr) (ha : a ∈ BlkAddr.blk :: s.blk.map .node) :=
    hother a (ne_of_mem_of_not_mem ha hblk) fun ha' => h.blk_apart ha ha'
  have hif (a : BlkAddr) (ha : a ∈ BlkAddr.iftmp :: s.iftmp.map .ifnode) :=
    hother a (fun e => by rw [e] at ha; simp at ha) fun ha' => iftmp_apart (.inr rfl) ha ha'
  refine ⟨h.blk.congr (fun a ha => (hblk' a ha).1) fun a ha =>
    (hblk' a (List.mem_cons_of_mem _ ha)).2, ?_, ?_, fun id hid => ?_, fun id hid => ?_, ?_, ?_⟩
  · rw [FuncBlks.openBlk, List.map_append, ← h.fresh]
    exact hring.listAddTail htmp
  · have hfront := h.front
    rcases hs : s.stray with _ | pos
    · rw [front_none hs] at hfront
      exact (front_none hs).mpr ⟨hfront.1.congr hblk', hfront.2.congr hif⟩
    · rw [front_some hs] at hfront
      obtain ⟨hprev, hpoison, hnil⟩ := hfront
      exact (front_some hs).mpr ⟨(hblk' .blk List.mem_cons_self).2.trans hprev,
        (hif .iftmp List.mem_cons_self).2.trans hpoison, hnil⟩
  · intro hid'
    rcases List.mem_append.mp hid with hid | hid
    · exact h.apart id hid hid'
    · rw [List.mem_singleton.mp hid] at hid'
      exact lt_irrefl _ (h.lt _ (.inl hid'))
  · change id < s.fresh + 1
    rcases hid with hid | hid | hid
    · exact Nat.lt_succ_of_lt (h.lt _ (.inl hid))
    · rcases List.mem_append.mp hid with hid | hid
      · exact Nat.lt_succ_of_lt (h.lt _ (.inr (.inl hid)))
      · rw [List.mem_singleton.mp hid]
        exact Nat.lt_succ_self _
    · exact Nat.lt_succ_of_lt (h.lt _ (.inr (.inr hid)))
  · change Function.update heap.entry heap.fresh .zero = Function.update s.entry s.fresh .zero
    rw [h.entry, h.fresh]
  · change heap.fresh + 1 = s.fresh + 1
    rw [h.fresh]

/-- An open block becomes a pending `if`, as long as no `else` has gone astray. It is linked by its
second list head, which is in none of the lists yet. -/
theorem Represents.pushIf (h : heap.Represents s) (hstray : s.stray = none) (hid : id ∈ s.blktmp)
    (hif : id ∉ s.iftmp) : ((heap.relink (Links.initListHead (.ifnode id))).relink
      (Links.listAddTail (.ifnode id) .iftmp)).Represents (s.pushIf id) := by
  obtain ⟨hblkRing, hifRing⟩ := (front_none hstray).mp h.front
  have hnew : BlkAddr.ifnode id ∉ BlkAddr.iftmp :: s.iftmp.map .ifnode := by
    rw [List.mem_cons, not_or, ifnode_mem]
    exact ⟨nofun, hif⟩
  have hblk : BlkAddr.ifnode id ∉ BlkAddr.blk :: s.blk.map .node := by simp
  have htmp : BlkAddr.ifnode id ∉ BlkAddr.blktmp :: s.blktmp.map .node := by simp
  have hring := hifRing.initListHead_apart hnew
  refine .of_rings hstray ?_ ?_ ?_ h.apart (fun id' hid' => ?_) h.entry h.fresh
  · exact hring.listAddTail_apart (hblkRing.initListHead_apart hblk) hblk fun _ hx hx' =>
      iftmp_apart (.inl rfl) hx' hx
  · exact hring.listAddTail_apart (h.blktmp.initListHead_apart htmp) htmp fun _ hx hx' =>
      iftmp_apart (.inr rfl) hx' hx
  · rw [FuncBlks.pushIf, List.map_append]
    exact hring.listAddTail hnew
  · rcases hid' with hid' | hid' | hid'
    · exact h.lt _ (.inl hid')
    · exact h.lt _ (.inr (.inl hid'))
    · rcases List.mem_append.mp hid' with hid' | hid'
      · exact h.lt _ (.inr (.inr hid'))
      · rw [List.mem_singleton.mp hid']
        exact h.lt _ (.inr (.inl hid))

/-- The last pending `if` is taken off, by the `else` that it goes to. -/
theorem Represents.dropIf (h : heap.Represents s) (hstray : s.stray = none)
    (hlast : s.iftmp.getLast? = some id) :
    (heap.relink (del (.ifnode id))).Represents { s with iftmp := s.iftmp.dropLast } := by
  obtain ⟨hblkRing, hifRing⟩ := (front_none hstray).mp h.front
  have hlast' : (s.iftmp.map BlkAddr.ifnode).getLast? = some (.ifnode id) := by
    rw [List.getLast?_map, hlast, Option.map_some]
  refine .of_rings hstray ?_ ?_ ?_ h.apart (fun id' hid' => ?_) h.entry h.fresh
  · exact hifRing.listDel_last_apart hlast' hblkRing fun _ hx hx' => iftmp_apart (.inl rfl) hx' hx
  · exact hifRing.listDel_last_apart hlast' h.blktmp fun _ hx hx' => iftmp_apart (.inr rfl) hx' hx
  · rw [List.map_dropLast]
    exact hifRing.listDel_last hlast'
  · exact h.lt _ (hid'.imp_right fun hid' => hid'.imp_right (List.dropLast_subset _ ·))

/-- An `else` goes astray: it poisons `iftmp` and overwrites `blk.prev`. What is left of the
relation is `blk` read forwards, and `blktmp`. -/
theorem Represents.goAstray (h : heap.Represents s) (hstray : s.stray = none)
    (hnil : s.iftmp = []) (pos : ℕ) :
    (heap.relink fun l => (del .iftmp l).setPrev .blk (.byte pos)).Represents (s.goAstray pos) := by
  obtain ⟨-, hifRing⟩ := (front_none hstray).mp h.front
  rw [hnil] at hifRing
  have hnext : heap.links.next .iftmp = .iftmp := hifRing.linked.1
  have hprev : heap.links.prev .iftmp = .iftmp := hifRing.linked.2
  have hother (a : BlkAddr) (ha : a ≠ .iftmp) :
      (del .iftmp heap.links).next a = heap.links.next a ∧
        (del .iftmp heap.links).prev a = heap.links.prev a :=
    Links.listDel_of_ne ha (by rwa [hprev]) (by rwa [hnext])
  have hnext' (a : BlkAddr) (ha : a ≠ .iftmp) :
      ((del .iftmp heap.links).setPrev .blk (.byte pos)).next a = heap.links.next a := by
    rw [← (hother a ha).1]
    rfl
  have hprev' (a : BlkAddr) (ha : a ≠ .iftmp) (hblk : a ≠ .blk) :
      ((del .iftmp heap.links).setPrev .blk (.byte pos)).prev a = heap.links.prev a :=
    (Links.setPrev_of_ne hblk).trans (hother a ha).2
  have hpoison : ((del .iftmp heap.links).setPrev .blk (.byte pos)).prev .iftmp = .poison2 := by
    rw [Links.setPrev_of_ne (by decide), del, Links.listDel_prev, if_pos rfl]
  have hfront : ((del .iftmp heap.links).setPrev .blk (.byte pos)).prev .blk = .byte pos := by
    simp only [Links.setPrev, Function.update_self]
  have hmem {head : BlkAddr} {ids : List ℕ} (a : BlkAddr) (ha : a ∈ head :: ids.map .node)
      (hhead : head ≠ .iftmp) : a ≠ .iftmp := by
    rintro rfl
    rcases List.mem_cons.mp ha with h | h
    · exact hhead h.symm
    · simp at h
  refine ⟨h.blk.congr (fun a ha => hnext' a (hmem a ha (by decide))) fun a ha => ?_,
    h.blktmp.congr fun a ha => ⟨hnext' a (hmem a ha (by decide)), ?_⟩,
    (@front_some _ (s.goAstray pos) pos rfl).mpr ⟨hfront, hpoison, hnil⟩, h.apart, h.lt, h.entry,
    h.fresh⟩
  · obtain ⟨id, -, rfl⟩ := List.mem_map.mp ha
    exact hprev' _ (by simp) (by simp)
  · refine hprev' a (hmem a ha (by decide)) ?_
    rintro rfl
    simp at ha

/-- The last open block is taken off, before it is put into `blk`. -/
theorem Represents.dropBlk (h : heap.Represents s) (hstray : s.stray = none)
    (hlast : s.blktmp.getLast? = some id) :
    (heap.relink (del (.node id))).Represents { s with blktmp := s.blktmp.dropLast } := by
  obtain ⟨hblkRing, hifRing⟩ := (front_none hstray).mp h.front
  have hlast' : (s.blktmp.map BlkAddr.node).getLast? = some (.node id) := by
    rw [List.getLast?_map, hlast, Option.map_some]
  refine .of_rings hstray ?_ ?_ ?_ (fun id' hid' => h.apart id' (List.dropLast_subset _ hid'))
    (fun id' hid' => ?_) h.entry h.fresh
  · exact h.blktmp.listDel_last_apart hlast' hblkRing fun _ hx hx' =>
      h.blk_apart hx hx'
  · rw [List.map_dropLast]
    exact h.blktmp.listDel_last hlast'
  · exact h.blktmp.listDel_last_apart hlast' hifRing fun _ hx hx' => iftmp_apart (.inr rfl) hx hx'
  · exact h.lt _ (hid'.imp_right fun hid' => hid'.imp_left (List.dropLast_subset _ ·))

/-- A block that is in no list is closed: it is linked in at the end of the list of closed blocks.
Behind a stray `else` this is where the links run through the bytes of the file, which is why there
must not have been one. -/
theorem Represents.insertBlk (h : heap.Represents s) (hstray : s.stray = none) (hlt : id < s.fresh)
    (hblk : id ∉ s.blk) (htmp : id ∉ s.blktmp) :
    (heap.relink (Links.listAddTail (.node id) .blk)).Represents
      { s with blk := s.blk ++ [id] } := by
  obtain ⟨hblkRing, hifRing⟩ := (front_none hstray).mp h.front
  have hnew : BlkAddr.node id ∉ BlkAddr.blk :: s.blk.map .node := by
    rw [List.mem_cons, not_or, node_mem]
    exact ⟨nofun, hblk⟩
  have hnew' : BlkAddr.node id ∉ BlkAddr.blktmp :: s.blktmp.map .node := by
    rw [List.mem_cons, not_or, node_mem]
    exact ⟨nofun, htmp⟩
  refine .of_rings hstray ?_ ?_ ?_ (fun id' hid' => ?_) (fun id' hid' => ?_) h.entry h.fresh
  · rw [List.map_append]
    exact hblkRing.listAddTail hnew
  · exact hblkRing.listAddTail_apart h.blktmp hnew' fun _ hx hx' => h.blk_apart hx' hx
  · exact hblkRing.listAddTail_apart hifRing (by simp) fun _ hx hx' => iftmp_apart (.inl rfl) hx hx'
  · rw [List.mem_append, List.mem_singleton, not_or]
    exact ⟨h.apart id' hid', ne_of_mem_of_not_mem hid' htmp⟩
  · rcases hid' with hid' | hid'
    · rcases List.mem_append.mp hid' with hid' | hid'
      · exact h.lt _ (.inl hid')
      · rwa [List.mem_singleton.mp hid']
    · exact h.lt _ (.inr hid')

/-- The last open block is closed: it is taken off, its entry is completed, and it is appended to
`blk`. -/
theorem Represents.closeBlk (h : heap.Represents s) (hstray : s.stray = none)
    (hlast : s.blktmp.getLast? = some id) (b : FwModuleFuncBlock) :
    (((heap.relink (del (.node id))).setEntry id b).relink
      (Links.listAddTail (.node id) .blk)).Represents
      { s.setEntry id b with blktmp := s.blktmp.dropLast, blk := s.blk ++ [id] } := by
  have hmem : id ∈ s.blktmp := List.mem_of_getLast? hlast
  refine ((h.dropBlk hstray hlast).setEntry id b).insertBlk hstray (h.lt _ (.inr (.inl hmem)))
    (h.apart id hmem) ?_
  -- the element behind the others is none of them
  obtain ⟨ids, hids⟩ := List.getLast?_eq_some_iff.mp hlast
  have hnodup := (List.nodup_cons.mp h.blktmp.nodup).2.of_map
  rw [hids] at hnodup
  change id ∉ s.blktmp.dropLast
  rw [hids, List.dropLast_concat]
  exact fun hid => (List.nodup_append.mp hnodup).2.2 id hid id List.mem_cons_self rfl

/-- The last open block is behind the head. With no open block the head itself is there, which is no
entry. -/
theorem Represents.prev_blktmp (h : heap.Represents s) :
    (heap.links.prev .blktmp).nodeEntry = s.blktmp.getLast? := by
  rw [h.blktmp.prev_eq, List.getLastD_eq_getLast?, List.getLast?_map]
  cases s.blktmp.getLast? with
  | none => rfl
  | some id => rfl

/-- The last pending `if` is behind the head, or the head is, or the poison. The second is the empty
list, and the third what an `else` that went astray has left. -/
theorem Represents.prev_iftmp (h : heap.Represents s) :
    heap.links.prev .iftmp = match s.iftmp.getLast?, s.stray with
      | some id, _ => .ifnode id
      | none, none => .iftmp
      | none, some _ => .poison2 := by
  have hfront := h.front
  rcases hs : s.stray with _ | pos
  · rw [((front_none hs).mp hfront).2.prev_eq, List.getLastD_eq_getLast?, List.getLast?_map]
    cases s.iftmp.getLast? with
    | none => rfl
    | some id => rfl
  · obtain ⟨-, hpoison, hnil⟩ := (front_some hs).mp hfront
    rw [hpoison, hnil]
    rfl

/-- A pending `if` is there only if no `else` has gone astray. -/
theorem Represents.stray_of_pending (h : heap.Represents s) (hlast : s.iftmp.getLast? = some id) :
    s.stray = none := by
  rcases hs : s.stray with _ | pos
  · rfl
  · rw [((front_some hs).mp h.front).2.2] at hlast
    cases hlast

theorem Represents.listEmpty_blktmp (h : heap.Represents s) :
    heap.links.listEmpty .blktmp = s.blktmp.getLast?.isNone := by
  rw [h.blktmp.listEmpty]
  cases s.blktmp using List.reverseRecOn with
  | nil => rfl
  | append_singleton ids id => simp

/-! ### Stores to the last list head

`list_add_tail` stores to the list head behind the head of a list. In a ring that is an element or
the head, and a store there is no fault. Behind an `else` that went astray it may be a byte of the
file, or poison. -/

/-- The elements of a list can be written to, and so can its head. -/
theorem fault_node {a head : BlkAddr} {ids : List ℕ} (ha : a ∈ head :: ids.map BlkAddr.node)
    (hhead : head.fault = none) : a.fault = none := by
  rcases List.mem_cons.mp ha with rfl | ha
  · exact hhead
  · obtain ⟨id, -, rfl⟩ := List.mem_map.mp ha
    rfl

theorem fault_ifnode {a head : BlkAddr} {ids : List ℕ} (ha : a ∈ head :: ids.map BlkAddr.ifnode)
    (hhead : head.fault = none) : a.fault = none := by
  rcases List.mem_cons.mp ha with rfl | ha
  · exact hhead
  · obtain ⟨id, -, rfl⟩ := List.mem_map.mp ha
    rfl

/-- `list_add_tail` to a list whose last list head is there. -/
theorem listAddTail_eq {new head : BlkAddr} (h : (heap.links.prev head).fault = none) :
    listAddTail new head heap = ⟨[], .ok (⟨⟩, heap.relink (Links.listAddTail new head))⟩ := by
  rw [listAddTail, get_bind_apply, h]
  rfl

/-- `list_add_tail` to one whose last list head is not. -/
theorem listAddTail_fault {new head : BlkAddr} {f : Fault}
    (h : (heap.links.prev head).fault = some f) :
    listAddTail new head heap = ⟨[], .error (.fault f)⟩ := by
  rw [listAddTail, get_bind_apply, h]
  rfl

end Operations

/-! ## The handlers refine those over lists of addresses

Each handler is followed side by side with the one over lists. They read the same bytes, so they
take the same way, and where a store is a fault on one side the other one halts for the same reason.
-/

section Handlers

variable {mem : Mem} {code : UInt8} {body : FwStr}

theorem consumeLeb_refines (P : BlockHeap → FuncBlks → Prop) (maxbit : ℕ) (onErr : Status) :
    Refines P (fwInstrConsumeLeb mem maxbit onErr body)
      (FastWasm.fwInstrConsumeLeb mem maxbit onErr body) fun _ => P := by
  rw [fwInstrConsumeLeb, FastWasm.fwInstrConsumeLeb]
  cases fwStrLebGetu mem body maxbit with
  | hang => exact .halt _
  | strErr => exact .pure fun _ _ h => h
  | got v body' => exact .pure fun _ _ h => h

theorem consumeBrtbl_refines (P : BlockHeap → FuncBlks → Prop) :
    Refines P (fwInstrConsumeBrtbl mem body) (FastWasm.fwInstrConsumeBrtbl mem body)
      fun _ => P := by
  rw [fwInstrConsumeBrtbl, FastWasm.fwInstrConsumeBrtbl]
  cases fwStrLebGetu mem body 32 with
  | hang => exact .halt _
  | strErr => exact .pure fun _ _ h => h
  | got blknum body' =>
    rcases hl : fwInstrConsumeBrtblLoop mem blknum.toUInt32.toNat body' with
      _ | ⟨_ | _, body''⟩ <;> simp only [hl]
    · exact .halt _
    · exact .pure fun _ _ h => h
    · exact consumeLeb_refines P 32 .ok

/-- A block that was opened is the last open one, and is not pending. The handler of an `if` goes on
from there. -/
theorem consumeBlock_refines :
    Refines Represents (fwInstrConsumeBlock mem code body)
      (FastWasm.fwInstrConsumeBlock mem code body) fun x heap s => heap.Represents s ∧
        (x.1 = .ok → ∃ id ∈ s.blktmp, s.blktmp.getLast? = some id ∧ id ∉ s.iftmp) := by
  refine .get_bind fun heap s h => ?_
  have hopened : Refines (fun heap' s' => heap' = heap ∧ s' = s)
      (do
        Logged.set (heap.calloc.relink (Links.initListHead (.node heap.fresh)))
        listAddTail (.node heap.fresh) .blktmp : Walk PUnit)
      (Logged.set s.openBlk) fun _ heap' s' => heap' = heap.opened ∧ s' = s.openBlk := by
    have hfault : ((heap.links.initListHead (.node heap.fresh)).prev .blktmp).fault = none :=
      fault_node (h.blktmp.initListHead_apart h.fresh_not_mem.2).prev_mem rfl
    have hrun : listAddTail (.node heap.fresh) .blktmp
        (heap.calloc.relink (Links.initListHead (.node heap.fresh))) =
          ⟨[], .ok (⟨⟩, heap.opened)⟩ := listAddTail_eq hfault
    rintro _ _ ⟨rfl, rfl⟩
    rw [set_bind_apply, hrun]
    exact ⟨rfl, rfl, rfl, rfl⟩
  dsimp only
  rw [← Logged.bind_assoc]
  refine hopened.bind fun _ => .bind (consumeLeb_refines _ 32 .err) fun x => ?_
  obtain ⟨status, body'⟩ := x
  cases status with
  | err =>
    refine .pure ?_
    rintro _ _ ⟨rfl, rfl⟩
    exact ⟨h.openBlk, nofun⟩
  | ok =>
    refine .get_bind ?_
    rintro _ _ ⟨rfl, rfl⟩
    refine .bind (Q := fun _ heap' s' => heap'.Represents s' ∧
      ∃ id ∈ s'.blktmp, s'.blktmp.getLast? = some id ∧ id ∉ s'.iftmp)
      (.set fun _ _ _ => ?_) fun _ => .pure fun _ _ h => ⟨h.1, fun _ => h.2⟩
    refine ⟨?_, s.fresh, List.mem_append_right _ List.mem_cons_self, List.getLast?_concat, ?_⟩
    · rw [h.fresh, FuncBlks.setStart, ← h.openBlk.entry]
      exact h.openBlk.setEntry _ _
    · exact fun hid => lt_irrefl _ (h.lt _ (.inr (.inr hid)))

theorem consumeIf_refines :
    Refines Represents (fwInstrConsumeIf mem code body) (FastWasm.fwInstrConsumeIf mem code body)
      fun _ => Represents := by
  refine .bind consumeBlock_refines fun x => ?_
  obtain ⟨status, body'⟩ := x
  cases status with
  | err => exact .pure fun _ _ h => h.1
  | ok =>
    refine .get_bind ?_
    rintro heap s ⟨h, hlast⟩
    obtain ⟨id, hid, hlast, hif⟩ := hlast rfl
    simp only [h.prev_blktmp, hlast]
    have hne : BlkAddr.iftmp ≠ .ifnode id := by simp
    have hprev : (heap.links.initListHead (.ifnode id)).prev .iftmp = heap.links.prev .iftmp :=
      (Links.initListHead_of_ne hne).2
    rcases hs : s.stray with _ | pos
    · have hfault : ((heap.links.initListHead (.ifnode id)).prev .iftmp).fault = none := by
        rw [hprev]
        exact fault_ifnode ((front_none hs).mp h.front).2.prev_mem rfl
      have hrun : listAddTail (.ifnode id) .iftmp
          (heap.relink (Links.initListHead (.ifnode id))) = ⟨[], .ok (⟨⟩, _)⟩ :=
        listAddTail_eq hfault
      rintro _ _ ⟨rfl, rfl⟩
      rw [set_bind_apply, bind_eq hrun]
      exact ⟨rfl, rfl, h.pushIf hs hid hif⟩
    · have hfault : ((heap.links.initListHead (.ifnode id)).prev .iftmp).fault = some .badPtr := by
        rw [hprev, ((front_some hs).mp h.front).2.1]
        rfl
      have hrun : listAddTail (.ifnode id) .iftmp
          (heap.relink (Links.initListHead (.ifnode id))) = ⟨[], .error (.fault .badPtr)⟩ :=
        listAddTail_fault hfault
      rintro _ _ ⟨rfl, rfl⟩
      rw [set_bind_apply, bind_of_error (congrArg Outcome.res hrun), hrun]
      exact ⟨rfl, rfl⟩

theorem consumeElse_refines :
    Refines Represents (fwInstrConsumeElse body) (FastWasm.fwInstrConsumeElse body)
      fun _ => Represents := by
  refine .get_bind fun heap s h => ?_
  simp only [h.prev_iftmp]
  cases hlast : s.iftmp.getLast? with
  | none =>
    rcases hs : s.stray with _ | pos
    · refine .bind (Q := fun _ => Represents) (.set fun _ _ _ => ?_) fun _ => .pure fun _ _ h => h
      exact h.goAstray hs (List.getLast?_eq_none_iff.mp hlast) _
    · exact .halt _
  | some id =>
    refine .bind (Q := fun _ => Represents) (.set fun _ _ _ => ?_) fun _ => .pure fun _ _ h => h
    rw [FuncBlks.popIf, ← h.entry]
    exact (h.dropIf (h.stray_of_pending hlast) hlast).setEntry id _

theorem consumeEnd_refines :
    Refines Represents (fwInstrConsumeEnd body) (FastWasm.fwInstrConsumeEnd body)
      fun _ => Represents := by
  refine .get_bind fun heap s h => ?_
  simp only [h.listEmpty_blktmp, h.prev_blktmp]
  have hpure {x : Status × FwStr} : Refines (fun heap' s' => heap' = heap ∧ s' = s)
      (pure x : Walk (Status × FwStr)) (pure x) fun _ => Represents := by
    refine .pure ?_
    rintro _ _ ⟨rfl, rfl⟩
    exact h
  cases hlast : s.blktmp.getLast? with
  | none =>
    rw [Option.isNone_none, if_pos rfl]
    exact .ite (fun _ => hpure) fun _ => hpure
  | some id =>
    rw [Option.isNone_some, if_neg Bool.false_ne_true]
    -- the entry leaves `blktmp`, and `blk` is as it was
    have hprev : (del (.node id) heap.links).prev .blk = heap.links.prev .blk := by
      have hmem : BlkAddr.node id ∈ BlkAddr.blktmp :: s.blktmp.map .node :=
        List.mem_cons_of_mem _ (node_mem.mpr (List.mem_of_getLast? hlast))
      refine (Links.listDel_of_ne (by simp) (fun e => ?_) fun e => ?_).2
      · have := h.blktmp.prev_mem_of hmem
        rw [← e] at this
        simp at this
      · have := h.blktmp.next_mem_of hmem
        rw [← e] at this
        simp at this
    rcases hs : s.stray with _ | pos
    · have hfault : ((del (.node id) heap.links).prev .blk).fault = none := by
        rw [hprev]
        exact fault_node ((front_none hs).mp h.front).1.prev_mem rfl
      have hrun (b : FwModuleFuncBlock) : listAddTail (.node id) .blk
          ((heap.relink (del (.node id))).setEntry id b) = ⟨[], .ok (⟨⟩, _)⟩ :=
        listAddTail_eq hfault
      rintro _ _ ⟨rfl, rfl⟩
      dsimp only
      rw [set_bind_apply, bind_eq (hrun _)]
      refine ⟨rfl, rfl, ?_⟩
      rw [FuncBlks.closeBlk, ← h.entry]
      exact h.closeBlk hs hlast _
    · have hfault : ((del (.node id) heap.links).prev .blk).fault = some .overBytes := by
        rw [hprev, ((front_some hs).mp h.front).1]
        rfl
      have hrun (b : FwModuleFuncBlock) : listAddTail (.node id) .blk
          ((heap.relink (del (.node id))).setEntry id b) = ⟨[], .error (.fault .overBytes)⟩ :=
        listAddTail_fault hfault
      rintro _ _ ⟨rfl, rfl⟩
      dsimp only
      rw [set_bind_apply, bind_of_error (congrArg Outcome.res (hrun _)), hrun]
      exact ⟨rfl, rfl⟩

theorem consume_refines (fn : ConsumeFn) :
    Refines Represents (consume mem code fn body) (fn.consume mem code body)
      fun _ => Represents := by
  cases fn with
  | none_ => exact .pure fun _ _ h => h
  | c32 => exact consumeLeb_refines _ 32 .ok
  | c64 => exact consumeLeb_refines _ 64 .ok
  | brtbl => exact consumeBrtbl_refines _
  | block => exact consumeBlock_refines.post fun _ _ _ h => h.1
  | if_ => exact consumeIf_refines
  | else_ => exact consumeElse_refines
  | end_ => exact consumeEnd_refines

/-- The walk, by induction on the rounds. Both have the same bound. -/
theorem loop_refines (n : ℕ) :
    Refines Represents (fwModuleValidateLoop mem n body) (FastWasm.fwModuleValidateLoop mem n body)
      fun _ => Represents := by
  induction n generalizing body with
  | zero => exact .halt _
  | succ n ih =>
    refine .ite (fun _ => ?_) fun _ => .pure fun _ _ h => h
    rcases fwStrGet8 mem body with _ | ⟨opcode, next⟩
    · exact .pure fun _ _ h => h
    · refine .bind (Q := fun _ => Represents) (.emit _ fun _ _ h => h) fun _ => ?_
      cases fwGetInstr opcode with
      | none => exact ih
      | some instr =>
        cases hc : instr.consume with
        | none =>
          simp only [hc]
          exact .halt _
        | some fn =>
          simp only [hc]
          exact .bind (consume_refines fn) fun _ => ih

theorem validateInst_refines :
    Refines Represents (fwModuleValidateInst mem body) (FastWasm.fwModuleValidateInst mem body)
      fun _ => Represents := by
  refine .bind (loop_refines _) fun next => ?_
  cases next with
  | none => exact .pure fun _ _ h => h
  | some next => exact .ite (fun _ => .pure fun _ _ h => h) fun _ => .pure fun _ _ h => h

end Handlers

/-- The list of closed blocks is not longer than the number of entries. -/
theorem Represents.length_blk {heap : BlockHeap} {s : FuncBlks} (h : heap.Represents s) :
    s.blk.length ≤ heap.fresh :=
  Links.length_le_of_lt (List.nodup_cons.mp h.blk.nodup).2.of_map fun id hid =>
    h.fresh ▸ h.lt id (.inl hid)

/-- A search of the pointers is a search of the list, from its front. It never goes by `blk.prev`,
so it does not mind what an `else` has stored there. -/
theorem Represents.findBlk {heap : BlockHeap} {s : FuncBlks} (h : heap.Represents s) (start : ℕ) :
    heap.fwInstrFindBlk start = .ok (FastWasm.fwInstrFindBlk s start) := by
  have hlen : (s.blk.map BlkAddr.node).length < heap.fresh + 1 := by
    rw [List.length_map]
    exact Nat.lt_succ_of_le h.length_blk
  rw [fwInstrFindBlk, FastWasm.fwInstrFindBlk, h.blk.listFindFrom hlen, ← h.entry, List.find?_map,
    List.find?_map]
  have hentry (found : Option ℕ) : (found.map BlkAddr.node).bind BlkAddr.nodeEntry = found := by
    cases found with
    | none => rfl
    | some id => rfl
  exact congrArg (fun found => Except.ok (found.map heap.entry)) (hentry _)

/-- The validator over pointers does what the one over lists of addresses does, whatever the bytes:
it fetches the same opcodes, and ends in the same way, with a status or at the same fault. When it
returns, the pointers represent the lists, and every search of what it leaves behind has the same
result. -/
theorem validate_refines (mem : Mem) (body : FwStr) :
    ((fwModuleValidateInst mem body init).log =
        (FastWasm.fwModuleValidateInst mem body .init).log ∧
      ∀ e, (fwModuleValidateInst mem body init).res = .error e ↔
        (FastWasm.fwModuleValidateInst mem body .init).res = .error e) ∧
    ∀ status heap, (fwModuleValidateInst mem body init).res = .ok (status, heap) →
      ∃ blks, (FastWasm.fwModuleValidateInst mem body .init).res = .ok (status, blks) ∧
        heap.Represents blks ∧
        ∀ start, heap.fwInstrFindBlk start = .ok (FastWasm.fwInstrFindBlk blks start) := by
  refine ⟨⟨(validateInst_refines _ _ represents_init).1,
    validateInst_refines.halts_iff represents_init⟩, fun status heap hres => ?_⟩
  obtain ⟨blks, hres', h⟩ := validateInst_refines.returns represents_init hres
  exact ⟨blks, hres', h, h.findBlk⟩

end BlockHeap

end FastWasm
