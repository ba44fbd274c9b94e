import FastWasm.Registry
import FastWasm.Unlink

/-!
# The life of a registry (`fw_import_t`)

A registry links its entries into eight lists for each of four kinds. Functions and globals are
added and functions are looked up, in any order, and `fw_imports_wrap_free` takes all lists apart
and frees the entries with their names. Every access to a block is logged. The registry answers as a
log of entries does, whatever the order of the calls, and the calls free every entry that a later
`fw_imports_wrap_free` finds, once, and use none behind that.

The list of entries that were added is all that the registry is for (`RegistryLog`), and a call has
a meaning over it. A registry represents such a log when each of its lists has the entries of its
bucket, the latest first, and every entry has the contents that were given. Each call keeps this,
and what it does to the blocks is put into one statement (`Effect`) that composes over calls:
entries that go away are freed once, and the blocks of others are only used. The two together are
kept over any sequence of calls.

Globals are added and freed, and never looked up. Lists of the other two kinds stay empty.
-/

namespace FastWasm

open Logged Ownership

/-! ## The memory

One allocation for the heads of all lists, one for each entry, and two for the names of an entry. -/

/-- The kinds of entries, each with eight lists. Only functions are hashed into them. -/
inductive RegistryKind where
  /-- `imports->funcs.funcs` -/
  | funcs
  /-- `imports->tbls.tbls` -/
  | tbls
  /-- `imports->mems.mems` -/
  | mems
  /-- `imports->glbs.glbs` -/
  | glbs
  deriving DecidableEq, Repr

/-- The kinds, in the order of `fw_import_t`. -/
def RegistryKind.all : List RegistryKind := [.funcs, .tbls, .mems, .glbs]

/-- The address of a list head: that of a bucket, or the one in an entry. Entries of all kinds are
numbered together, in the order of their allocation. -/
inductive RegistryAddr where
  /-- `NULL` -/
  | null
  /-- `LIST_POISON1` -/
  | poison1
  /-- `LIST_POISON2` -/
  | poison2
  /-- a bucket of a kind -/
  | head (kind : RegistryKind) (hash : ℕ)
  /-- `node` of the entry allocated after so many others -/
  | node (id : ℕ)
  deriving DecidableEq, Repr

/-- A block: the registry itself, an entry, or one of the names of an entry. The names are copies
that the entry owns. -/
inductive RegistryBlock where
  /-- the registry itself -/
  | imports
  /-- `mname` of an entry -/
  | mname (id : ℕ)
  /-- `nsname` of an entry -/
  | nsname (id : ℕ)
  /-- an entry -/
  | entry (id : ℕ)
  deriving DecidableEq, Repr

namespace RegistryAddr

/-- The block that a list head lies in, where there is one. An access to the list head is a use of
that block. -/
def owner : RegistryAddr → Option RegistryBlock
  | head _ _ => some .imports
  | node id => some (.entry id)
  | null | poison1 | poison2 => none

/-- The blocks that are freed with an entry, in order. -/
def blocks : RegistryAddr → List RegistryBlock
  | node id => [.mname id, .nsname id, .entry id]
  | null | poison1 | poison2 | head _ _ => []

end RegistryAddr

/-- `fw_value_t`, which is copied into the entry of a global. -/
structure FwValue where
  /-- the type -/
  type : UInt8
  /-- the bits of the union -/
  u : UInt64
  deriving DecidableEq, Repr

/-- `fw_import_glb_t` with all its fields but the list head. -/
structure ImportGlbEntry where
  /-- the module name -/
  mname : List UInt8
  /-- the name in it -/
  nsname : List UInt8
  /-- the value -/
  val : FwValue
  deriving DecidableEq, Repr

/-- The arguments of a call of `add_global`, as it stores them. -/
structure AddGlobal where
  /-- the bytes from `mname` on -/
  mname : List UInt8
  /-- the bytes from `nsname` on -/
  nsname : List UInt8
  /-- `*val` -/
  val : FwValue

/-- The entry that a call of `add_global` allocates. -/
def AddGlobal.entry (c : AddGlobal) : ImportGlbEntry := ⟨cString c.mname, cString c.nsname, c.val⟩

/-- The memory of a registry: the links, and the contents of the entries by their numbers. -/
structure Registry where
  /-- the list heads -/
  links : Links RegistryAddr
  /-- the entries of functions -/
  func : ℕ → ImportFuncEntry
  /-- the entries of globals -/
  glb : ℕ → ImportGlbEntry
  /-- the number of entries allocated -/
  fresh : ℕ

/-! ## The calls

Each access to a block is a use in the log, those to the list heads included. An entry is known by
its number, in the order of the allocations, and numbers are not used again. -/

namespace Registry

/-- A computation over a registry, which logs the uses of blocks. -/
abbrev Step (α : Type) : Type := Logged (Use RegistryBlock) Halt Registry α

/-- A computation over the list heads, as one over the registry. -/
def onLinks {α : Type} (m : Logged (Use RegistryBlock) Halt (Links RegistryAddr) α) : Step α :=
  fun r => ⟨(m r.links).log, (m r.links).res.map fun x => (x.1, { r with links := x.2 })⟩

/-- `fw_imports_wrap_new`: the memory is cleared, and every bucket is set up. -/
def fwImportsWrapNew : Registry where
  links := (RegistryKind.all.flatMap fun kind =>
    (List.range fwMaxImportHash).map (.head kind)).foldl (fun l a => l.initListHead a)
      ⟨fun _ => .null, fun _ => .null⟩
  func _ := ⟨⟨[], [], none⟩, 0, 0⟩
  glb _ := ⟨[], [], ⟨0, 0⟩⟩
  fresh := 0

/-- `INIT_LIST_HEAD(&ret->node)`, then `list_add(&ret->node, head)`: the entry is put at the front
of a bucket. -/
def link (id : ℕ) (head : RegistryAddr) : Step PUnit :=
  onLinks (Links.add RegistryAddr.owner (.fault .badPtr) (.node id) head)

/-- `fw_imports_func_new`, with `fw_import_func_wrap_insert`, which reads the first bytes of the
names. -/
def fwImportsFuncNew (c : AddFunc) : Step ℕ := do
  let r ← get
  let ret := r.fresh
  set { r with func := Function.update r.func ret c.entry, fresh := ret + 1 }
  emit (.touch (.nsname ret) 0)
  emit (.touch (.mname ret) 0)
  link ret (.head .funcs (fwImportHash c.entry.mname c.entry.nsname))
  pure ret

/-- `fw_imports_glb_new`, which uses the first bucket only. -/
def fwImportsGlbNew (c : AddGlobal) : Step ℕ := do
  let r ← get
  let ret := r.fresh
  set { r with glb := Function.update r.glb ret c.entry, fresh := ret + 1 }
  link ret (.head .glbs 0)
  pure ret

/-- The comparisons of `fw_import_func_wrap_find` with one entry. The second name is looked at only
when the first is equal. -/
def matchFunc (mname nsname : List UInt8) (id : ℕ) : Step Bool := do
  emit (.touch (.entry id) 0)
  emit (.touch (.mname id) 0)
  let r ← get
  if fwStrCmpEq mname (r.func id).mname then do
    emit (.touch (.nsname id) 0)
    pure (fwStrCmpEq nsname (r.func id).nsname)
  else pure false

/-- `list_for_each_entry` of `fw_import_func_wrap_find`, for at most so many entries: it goes on
until it is back at the head. To go on is to read the list head of the entry. -/
def findFrom (mname nsname : List UInt8) (head : RegistryAddr) :
    ℕ → RegistryAddr → Step (Option ℕ)
  | 0, _ => halt .fuel
  | rounds + 1, pos =>
    if pos = head then pure none
    else
      match pos with
      | .node id => do
        if ← matchFunc mname nsname id then pure (some id)
        else do
          onLinks (Links.touch RegistryAddr.owner (.fault .badPtr) pos)
          let r ← get
          findFrom mname nsname head rounds (r.links.next pos)
      | _ => halt (.fault .badPtr)

/-- `fw_import_func_wrap_find`. No list is longer than the number of entries. -/
def fwImportFuncWrapFind (mname nsname : List UInt8) : Step (Option ℕ) := do
  let head : RegistryAddr := .head .funcs (fwImportHash mname nsname)
  onLinks (Links.touch RegistryAddr.owner (.fault .badPtr) head)
  let r ← get
  findFrom mname nsname head (r.fresh + 1) (r.links.next head)

/-- `fw_imports_wrap_free`: for each hash the lists of the four kinds are gone through, with the
next entry read before the present one is freed. No list is longer than the number of entries. The
registry itself stays, and its lists are empty behind it. -/
def fwImportsWrapFree : Step PUnit := do
  let r ← get
  onLinks (forEach (fun i => forEach (fun kind => Links.dropEach RegistryAddr.owner
    RegistryAddr.blocks .poison1 .poison2 (.fault .badPtr) .fuel (r.fresh + 1) (.head kind i))
    RegistryKind.all) (List.range fwMaxImportHash))

end Registry

/-- A call, with its arguments. These are the four that are made of a registry from outside. -/
inductive RegistryCall where
  /-- `add_func` -/
  | addFunc (c : AddFunc)
  /-- `add_global` -/
  | addGlobal (c : AddGlobal)
  /-- `find` -/
  | find (mname nsname : List UInt8)
  /-- `fw_imports_wrap_free` -/
  | free

namespace RegistryCall

/-- What a call does, and the entry that it returns. -/
def run : RegistryCall → Registry.Step (Option ℕ)
  | addFunc c => do
    let ret ← Registry.fwImportsFuncNew c
    pure (some ret)
  | addGlobal c => do
    let ret ← Registry.fwImportsGlbNew c
    pure (some ret)
  | find mname nsname => Registry.fwImportFuncWrapFind mname nsname
  | free => do
    Registry.fwImportsWrapFree
    pure none

/-- Calls, one after the other, and what they return, each of them. -/
def runAll : List RegistryCall → Registry.Step (List (Option ℕ))
  | [] => pure []
  | call :: calls => do
    let ret ← call.run
    let rets ← runAll calls
    pure (ret :: rets)

end RegistryCall

/-! ## What a registry is for

A list of the entries that were added and not freed. Looking up a function is a search of this list,
and has nothing to do with hashes. -/

/-- The entries of a registry, the latest first, and the number of the next one. -/
structure RegistryLog where
  /-- the functions -/
  funcs : List (ℕ × AddFunc)
  /-- the globals -/
  glbs : List (ℕ × AddGlobal)
  /-- the number of entries ever added -/
  next : ℕ

namespace RegistryLog

/-- No entries, as in a new registry. -/
def new : RegistryLog := ⟨[], [], 0⟩

/-- The entries that are there, of both kinds. A number is never used for two of them. -/
def ids (s : RegistryLog) : List ℕ := s.funcs.map Prod.fst ++ s.glbs.map Prod.fst

end RegistryLog

namespace RegistryCall

/-- What a call returns, and the entries behind it, in terms of the log. -/
def spec (s : RegistryLog) : RegistryCall → Option ℕ × RegistryLog
  | addFunc c => (some s.next, { s with funcs := (s.next, c) :: s.funcs, next := s.next + 1 })
  | addGlobal c => (some s.next, { s with glbs := (s.next, c) :: s.glbs, next := s.next + 1 })
  | find mname nsname =>
    ((s.funcs.find? fun x => cString x.2.mname = mname ∧ cString x.2.nsname = nsname).map
      Prod.fst, s)
  | free => (none, { s with funcs := [], glbs := [] })

/-- What calls return, and the entries behind them. -/
def specAll (s : RegistryLog) : List RegistryCall → List (Option ℕ) × RegistryLog
  | [] => ([], s)
  | call :: calls =>
    ((call.spec s).1 :: (specAll (call.spec s).2 calls).1, (specAll (call.spec s).2 calls).2)

/-- The names in a call are shorter than `2 ^ 32` bytes. -/
def Short : RegistryCall → Prop
  | addFunc c => (cString c.mname).length < 2 ^ 32 ∧ (cString c.nsname).length < 2 ^ 32
  | find mname nsname => mname.length < 2 ^ 32 ∧ nsname.length < 2 ^ 32
  | addGlobal _ => True
  | free => True

end RegistryCall

/-! ## The lists of a registry

A bucket has the entries of the log with its hash, in the order of the log. Adding an entry to the
log changes one bucket. -/

/-- The bucket of a function, by the hash of its names, which are C strings here. -/
def AddFunc.hash (c : AddFunc) : ℕ := fwImportHash (cString c.mname) (cString c.nsname)

namespace RegistryLog

variable {s : RegistryLog} {kind kind' : RegistryKind} {i j id : ℕ}

/-- The entries of a bucket, the latest first. Those of two kinds are always empty, as nothing adds
to them. -/
def list (s : RegistryLog) : RegistryKind → ℕ → List ℕ
  | .funcs, i => (s.funcs.filter fun x => x.2.hash = i).map Prod.fst
  | .glbs, i => if i = 0 then s.glbs.map Prod.fst else []
  | .tbls, _ => []
  | .mems, _ => []

/-- Functions are in the buckets of their hashes, and globals in the first one. -/
theorem mem_list : id ∈ s.list kind i ↔ (kind = .funcs ∧ ∃ c, (id, c) ∈ s.funcs ∧ c.hash = i) ∨
    (kind = .glbs ∧ i = 0 ∧ ∃ c, (id, c) ∈ s.glbs) := by
  cases kind with
  | funcs => simp [list]
  | glbs =>
    by_cases hi : i = 0
    · simp [list, hi]
    · simp [list, hi]
  | tbls | mems => simp [list]

theorem mem_ids : id ∈ s.ids ↔ (∃ c, (id, c) ∈ s.funcs) ∨ ∃ c, (id, c) ∈ s.glbs := by
  simp [ids]

theorem ids_of_mem_list (h : id ∈ s.list kind i) : id ∈ s.ids := by
  refine mem_ids.mpr ?_
  rcases mem_list.mp h with ⟨-, c, hc, -⟩ | ⟨-, -, c, hc⟩
  · exact .inl ⟨c, hc⟩
  · exact .inr ⟨c, hc⟩

/-- Every entry is in a bucket, and by the next lemma in one only. -/
theorem exists_list (h : id ∈ s.ids) : ∃ kind, ∃ i < fwMaxImportHash, id ∈ s.list kind i := by
  rcases mem_ids.mp h with ⟨c, hc⟩ | ⟨c, hc⟩
  · exact ⟨.funcs, c.hash, ImportHeap.hash_lt _ _, mem_list.mpr (.inl ⟨rfl, c, hc, rfl⟩)⟩
  · exact ⟨.glbs, 0, by decide, mem_list.mpr (.inr ⟨rfl, rfl, c, hc⟩)⟩

/-- No entry is in two buckets, as each has one kind and one hash. -/
theorem list_apart (h : s.ids.Nodup) (hne : kind ≠ kind' ∨ i ≠ j) :
    List.Disjoint (s.list kind i) (s.list kind' j) := by
  obtain ⟨hfuncs, -, hdisj⟩ := List.nodup_append.mp h
  intro id hid hid'
  have hmem {β : Type} {xs : List (ℕ × β)} {c : β} (hc : (id, c) ∈ xs) : id ∈ xs.map Prod.fst :=
    List.mem_map_of_mem hc
  rcases mem_list.mp hid with ⟨rfl, c, hc, hi⟩ | ⟨rfl, hi, c, hc⟩ <;>
    rcases mem_list.mp hid' with ⟨rfl, c', hc', hj⟩ | ⟨rfl, hj, c', hc'⟩
  · have hcc : c = c' := (Prod.mk.inj (List.inj_on_of_nodup_map hfuncs hc hc' rfl)).2
    rcases hne with hne | hne
    · exact hne rfl
    · exact hne (by rw [← hi, ← hj, hcc])
  · exact hdisj _ (hmem hc) _ (hmem hc') rfl
  · exact hdisj _ (hmem hc') _ (hmem hc) rfl
  · rcases hne with hne | hne
    · exact hne rfl
    · exact hne (hi.trans hj.symm)

theorem list_nodup (h : s.ids.Nodup) (kind : RegistryKind) (i : ℕ) : (s.list kind i).Nodup := by
  obtain ⟨hfuncs, hglbs, -⟩ := List.nodup_append.mp h
  cases kind with
  | funcs => exact hfuncs.sublist (List.filter_sublist.map _)
  | glbs =>
    rw [list]
    by_cases hi : i = 0
    · rwa [if_pos hi]
    · rw [if_neg hi]
      exact List.nodup_nil
  | tbls | mems => exact List.nodup_nil

/-- A new function comes first in its bucket, and the others are as they were. -/
theorem list_addFunc (s : RegistryLog) (c : AddFunc) (kind : RegistryKind) (i : ℕ) :
    (RegistryCall.spec s (.addFunc c)).2.list kind i =
      if kind = .funcs ∧ i = c.hash then s.next :: s.list kind i else s.list kind i := by
  cases kind with
  | funcs =>
    by_cases hi : c.hash = i
    · simp [RegistryCall.spec, list, hi]
    · simp [RegistryCall.spec, list, hi, Ne.symm hi]
  | glbs | tbls | mems => rfl

/-- A new global comes first in the first bucket of the globals. -/
theorem list_addGlobal (s : RegistryLog) (c : AddGlobal) (kind : RegistryKind) (i : ℕ) :
    (RegistryCall.spec s (.addGlobal c)).2.list kind i =
      if kind = .glbs ∧ i = 0 then s.next :: s.list kind i else s.list kind i := by
  cases kind with
  | glbs =>
    by_cases hi : i = 0
    · simp [RegistryCall.spec, list, hi]
    · simp [list, hi]
  | funcs | tbls | mems => rfl

end RegistryLog

namespace Registry

/-- A registry holds the entries of a log. -/
structure Represents (r : Registry) (s : RegistryLog) : Prop where
  /-- the buckets -/
  ring : ∀ kind, ∀ i < fwMaxImportHash, r.links.Ring (.head kind i) ((s.list kind i).map .node)
  /-- the functions -/
  func : ∀ x ∈ s.funcs, r.func x.1 = x.2.entry
  /-- the globals -/
  glb : ∀ x ∈ s.glbs, r.glb x.1 = x.2.entry
  /-- the names are short -/
  short : ∀ x ∈ s.funcs, (RegistryCall.addFunc x.2).Short
  /-- no entry is there twice -/
  nodup : s.ids.Nodup
  /-- the entries were allocated -/
  lt : ∀ id ∈ s.ids, id < s.next
  /-- the number of entries -/
  fresh : r.fresh = s.next

theorem node_mem {ids : List ℕ} {id : ℕ} : RegistryAddr.node id ∈ ids.map .node ↔ id ∈ ids :=
  List.mem_map_of_injective fun _ _ => RegistryAddr.node.inj

/-- Two buckets share no list head, neither their own nor one of an entry. -/
theorem heads_apart {s : RegistryLog} (h : s.ids.Nodup) {kind kind' : RegistryKind} {i j : ℕ}
    (hne : kind ≠ kind' ∨ i ≠ j) :
    List.Disjoint (RegistryAddr.head kind i :: (s.list kind i).map .node)
      (RegistryAddr.head kind' j :: (s.list kind' j).map .node) := by
  have hlists : List.Disjoint ((s.list kind i).map RegistryAddr.node)
      ((s.list kind' j).map RegistryAddr.node) := by
    intro a ha ha'
    obtain ⟨id, hid, rfl⟩ := List.mem_map.mp ha
    exact RegistryLog.list_apart h hne hid (node_mem.mp ha')
  have hheads : kind' = kind → ¬ j = i := by
    rintro rfl rfl
    exact hne.elim (fun h => h rfl) fun h => h rfl
  simpa using ⟨hheads, hlists⟩

theorem represents_new : fwImportsWrapNew.Represents .new := by
  refine ⟨fun kind i hi => ?_, by simp [RegistryLog.new], by simp [RegistryLog.new],
    by simp [RegistryLog.new], List.nodup_nil, by simp [RegistryLog.new, RegistryLog.ids], rfl⟩
  have hlist : RegistryLog.new.list kind i = [] := by
    cases kind <;> simp [RegistryLog.list, RegistryLog.new]
  have hmem : RegistryAddr.head kind i ∈
      RegistryKind.all.flatMap fun kind => (List.range fwMaxImportHash).map (.head kind) := by
    refine List.mem_flatMap.mpr ⟨kind, ?_, List.mem_map_of_mem (List.mem_range.mpr hi)⟩
    cases kind <;> decide
  -- a bucket is set up, and what is set up later leaves it alone
  have hsetup : ∀ (as : List RegistryAddr) (l : Links RegistryAddr),
      (RegistryAddr.head kind i ∈ as ∨ l.Ring (.head kind i) []) →
        (as.foldl (fun l a => l.initListHead a) l).Ring (.head kind i) [] := by
    intro as
    induction as with
    | nil => exact fun _ h => h.resolve_left List.not_mem_nil
    | cons a as ih =>
      intro l h
      refine ih _ ?_
      by_cases ha : RegistryAddr.head kind i = a
      · rw [ha]
        exact .inr (Links.ring_initListHead _ _)
      · refine h.imp (fun h => (List.mem_cons.mp h).resolve_left ha) fun h => ?_
        exact h.initListHead_apart fun hmem => ha (List.mem_singleton.mp hmem).symm
  rw [hlist]
  exact hsetup _ _ (.inl hmem)

/-! ## The effect of calls

What is freed is told by which entries are there before and behind. So effects compose: what the
first calls have left is what the others start from. -/

/-- What calls do to the blocks: those of entries that go away are freed, once, and blocks of other
entries are used only. Nothing is used behind its `free`. -/
structure Effect (s s' : RegistryLog) (log : List (Use RegistryBlock)) : Prop where
  /-- entries are not allocated twice -/
  next_le : s.next ≤ s'.next
  /-- entries do not come back -/
  ids : ∀ id ∈ s'.ids, id ∈ s.ids ∨ s.next ≤ id
  /-- entries were allocated -/
  lt : ∀ id ∈ s'.ids, id < s'.next
  /-- nothing is used behind its `free` -/
  tidy : Tidy log
  /-- nothing is freed twice -/
  nodup : (freed log).Nodup
  /-- what is freed -/
  freed_iff : ∀ b, b ∈ freed log ↔ ∃ id, (id ∈ s.ids ∨ s.next ≤ id ∧ id < s'.next) ∧ id ∉ s'.ids ∧
    b ∈ (RegistryAddr.node id).blocks
  /-- what is used -/
  uses : ∀ e ∈ log, e.addr = .imports ∨
    ∃ id, (id ∈ s.ids ∨ s.next ≤ id) ∧ e.addr ∈ (RegistryAddr.node id).blocks

theorem imports_not_mem (id : ℕ) : RegistryBlock.imports ∉ (RegistryAddr.node id).blocks := by
  simp [RegistryAddr.blocks]

/-- A block belongs to one entry, as its name says which. -/
theorem eq_of_mem_blocks {id id' : ℕ} {b : RegistryBlock}
    (h : b ∈ (RegistryAddr.node id).blocks) (h' : b ∈ (RegistryAddr.node id').blocks) :
    id = id' := by
  simp only [RegistryAddr.blocks, List.mem_cons, List.not_mem_nil, or_false] at h h'
  rcases h with rfl | rfl | rfl <;> simpa using h'

theorem blocks_nodup (id : ℕ) : (RegistryAddr.node id).blocks.Nodup := by
  simp [RegistryAddr.blocks]

namespace Effect

variable {s s₁ s' : RegistryLog} {log log' : List (Use RegistryBlock)}

theorem refl (hlt : ∀ id ∈ s.ids, id < s.next) : Effect s s [] :=
  ⟨le_rfl, fun _ => .inl, hlt, List.Pairwise.nil, List.nodup_nil, fun b => by
    refine iff_of_false (by simp) ?_
    rintro ⟨id, hid | ⟨hle, hlt'⟩, hid', -⟩
    · exact hid' hid
    · exact absurd hlt' (Nat.not_lt.mpr hle), List.forall_mem_nil _⟩

/-- Calls after calls, with the logs one behind the other. An entry that is gone after the first
calls does not come back with the later ones, since new entries have new numbers; so nothing is
freed twice, or used after it was freed. -/
theorem trans (h : Effect s s₁ log) (h' : Effect s₁ s' log') (hlt : ∀ id ∈ s.ids, id < s.next) :
    Effect s s' (log ++ log') := by
  -- an entry that is gone was allocated before the later calls
  have hgone : ∀ id, (id ∈ s.ids ∨ s.next ≤ id ∧ id < s₁.next) → id ∉ s₁.ids →
      ¬ (id ∈ s₁.ids ∨ s₁.next ≤ id) := by
    rintro id hid hid₁ (hmem | hle)
    · exact hid₁ hmem
    · rcases hid with hid | ⟨-, hid⟩
      · exact absurd (hle.trans_lt (hlt id hid)) (Nat.not_lt.mpr h.next_le)
      · exact absurd hid (Nat.not_lt.mpr hle)
  refine ⟨h.next_le.trans h'.next_le, fun id hid => ?_, h'.lt,
    tidy_append.mpr ⟨h.tidy, h'.tidy, ?_⟩, ?_, fun b => ?_,
    List.forall_mem_append.mpr ⟨h.uses, fun e he => ?_⟩⟩
  · rcases h'.ids id hid with hid | hid
    · exact h.ids id hid
    · exact .inr (h.next_le.trans hid)
  · rintro b hb e he rfl
    obtain ⟨id, hid, hid₁, hblock⟩ := (h.freed_iff _).mp hb
    rcases h'.uses e he with himports | ⟨id', hid', hblock'⟩
    · exact imports_not_mem id (himports ▸ hblock)
    · rw [← eq_of_mem_blocks hblock hblock'] at hid'
      exact hgone id hid hid₁ hid'
  · rw [freed_append]
    refine List.nodup_append.mpr ⟨h.nodup, h'.nodup, ?_⟩
    rintro b hb _ hb' rfl
    obtain ⟨id, hid, hid₁, hblock⟩ := (h.freed_iff _).mp hb
    obtain ⟨id', hid', -, hblock'⟩ := (h'.freed_iff _).mp hb'
    rw [← eq_of_mem_blocks hblock hblock'] at hid'
    exact hgone id hid hid₁ (hid'.imp_right And.left)
  · rw [freed_append, List.mem_append, h.freed_iff, h'.freed_iff]
    refine ⟨?_, ?_⟩
    · rintro (⟨id, hid, hid₁, hblock⟩ | ⟨id, hid, hid', hblock⟩)
      · refine ⟨id, hid.imp_right fun h => ⟨h.1, h.2.trans_le h'.next_le⟩, fun hid' => ?_, hblock⟩
        exact hgone id hid hid₁ (h'.ids id hid')
      · refine ⟨id, ?_, hid', hblock⟩
        rcases hid with hid₁ | ⟨hle, hlt'⟩
        · exact (h.ids id hid₁).imp_right fun hle => ⟨hle, (h.lt id hid₁).trans_le h'.next_le⟩
        · exact .inr ⟨h.next_le.trans hle, hlt'⟩
    · rintro ⟨id, hid, hid', hblock⟩
      by_cases hid₁ : id ∈ s₁.ids
      · exact .inr ⟨id, .inl hid₁, hid', hblock⟩
      · by_cases hnext : id < s₁.next
        · exact .inl ⟨id, hid.imp_right fun h => ⟨h.1, hnext⟩, hid₁, hblock⟩
        · refine .inr ⟨id, .inr ⟨Nat.not_lt.mp hnext, ?_⟩, hid', hblock⟩
          rcases hid with hid | ⟨-, hid⟩
          · exact absurd ((hlt id hid).trans_le h.next_le) hnext
          · exact hid
  · rcases h'.uses e he with himports | ⟨id, hid, hblock⟩
    · exact .inl himports
    · refine .inr ⟨id, ?_, hblock⟩
      rcases hid with hid | hid
      · exact h.ids id hid
      · exact .inr (h.next_le.trans hid)

/-- Calls that free nothing use blocks of entries that are there, or that they add. -/
theorem of_touches {S : List RegistryBlock} (hnext : s.next ≤ s'.next)
    (hids : ∀ id, id ∈ s'.ids ↔ id ∈ s.ids ∨ s.next ≤ id ∧ id < s'.next)
    (hlt : ∀ id ∈ s.ids, id < s.next) (hlog : ∀ e ∈ log, ∃ b ∈ S, e = .touch b 0)
    (huses : ∀ b ∈ S, b = .imports ∨
      ∃ id, (id ∈ s.ids ∨ s.next ≤ id) ∧ b ∈ (RegistryAddr.node id).blocks) : Effect s s' log := by
  have hfreed : freed log = [] := Links.freed_of_touches (o := fun b => b) hlog
  refine ⟨hnext, fun id hid => ?_, fun id hid => ?_, Links.tidy_of_touches (o := fun b => b) hlog,
    by rw [hfreed]; exact List.nodup_nil, fun b => ?_, fun e he => ?_⟩
  · exact ((hids id).mp hid).imp_right And.left
  · rcases (hids id).mp hid with hid | ⟨-, hid⟩
    · exact (hlt id hid).trans_le hnext
    · exact hid
  · rw [hfreed]
    refine iff_of_false List.not_mem_nil ?_
    rintro ⟨id, hid, hid', -⟩
    exact hid' ((hids id).mpr hid)
  · obtain ⟨b, hb, rfl⟩ := hlog e he
    exact huses b hb

end Effect

/-! ## Adding an entry

The links of one bucket change, and two list heads of it are written to. These are of the registry
or of an entry that is there. -/

theorem onLinks_eq {α : Type} {m : Logged (Use RegistryBlock) Halt (Links RegistryAddr) α}
    {r : Registry} {log : List (Use RegistryBlock)} {a : α} {l : Links RegistryAddr}
    (h : m r.links = ⟨log, .ok (a, l)⟩) :
    onLinks m r = ⟨log, .ok (a, { r with links := l })⟩ := by
  rw [onLinks, h]
  rfl

/-- The block that a list head of a registry lies in. -/
def ownerOf (a : RegistryAddr) : RegistryBlock := a.owner.getD .imports

theorem owner_bucket (kind : RegistryKind) (i : ℕ) (ids : List ℕ) :
    ∀ a ∈ RegistryAddr.head kind i :: ids.map .node, a.owner = some (ownerOf a) := by
  rw [List.forall_mem_cons, List.forall_mem_map]
  exact ⟨rfl, fun _ _ => rfl⟩

section Steps

variable {r : Registry} {s : RegistryLog} {id i : ℕ} {kind : RegistryKind}

/-- A new entry is linked into a bucket, and the other buckets are as they were. It is allocated
just before, so none of the lists has it. -/
theorem link_run (hring : ∀ kind, ∀ i < fwMaxImportHash,
      r.links.Ring (.head kind i) ((s.list kind i).map .node))
    (hnodup : s.ids.Nodup) (hid : id ∉ s.ids) (hi : i < fwMaxImportHash) :
    ∃ log l', link id (.head kind i) r = ⟨log, .ok (⟨⟩, { r with links := l' })⟩ ∧
      (∀ kind', ∀ j < fwMaxImportHash, l'.Ring (.head kind' j)
        ((if kind' = kind ∧ j = i then id :: s.list kind' j else s.list kind' j).map .node)) ∧
      ∀ e ∈ log, ∃ b ∈ .imports :: (id :: s.ids).map .entry, e = .touch b 0 := by
  have hnew (kind' : RegistryKind) (j : ℕ) :
      RegistryAddr.node id ∉ .head kind' j :: (s.list kind' j).map .node := by
    rw [List.mem_cons, not_or, node_mem]
    exact ⟨nofun, fun hmem => hid (RegistryLog.ids_of_mem_list hmem)⟩
  have howner : ∀ a ∈ RegistryAddr.node id :: .head kind i :: (s.list kind i).map .node,
      a.owner = some (ownerOf a) := List.forall_mem_cons.mpr ⟨rfl, owner_bucket _ _ _⟩
  obtain ⟨log, hrun, hlog⟩ := Links.add_run (Halt.fault .badPtr) (hring kind i hi)
    (hnew kind i) howner
  refine ⟨log, _, onLinks_eq hrun, fun kind' j hj => ?_, fun e he => ?_⟩
  · have hinit := (hring kind i hi).initListHead_apart (hnew kind i)
    by_cases hsame : kind' = kind ∧ j = i
    · obtain ⟨rfl, rfl⟩ := hsame
      rw [if_pos ⟨rfl, rfl⟩]
      exact hinit.listAdd (hnew _ _)
    · rw [if_neg hsame]
      refine hinit.listAdd_apart ((hring kind' j hj).initListHead_apart (hnew kind' j))
        (hnew kind' j) fun x hx => heads_apart hnodup ?_ hx
      exact not_and_or.mp hsame
  · obtain ⟨a, ha, rfl⟩ := hlog e he
    refine ⟨_, ?_, rfl⟩
    rcases List.mem_cons.mp ha with rfl | ha
    · simp [ownerOf, RegistryAddr.owner]
    rcases List.mem_cons.mp ha with rfl | ha
    · exact List.mem_cons_self
    · obtain ⟨id', hid', rfl⟩ := List.mem_map.mp ha
      refine List.mem_cons_of_mem _ (List.mem_map_of_mem (List.mem_cons_of_mem _ ?_))
      exact RegistryLog.ids_of_mem_list hid'

theorem Represents.next_not_mem (h : r.Represents s) : s.next ∉ s.ids :=
  fun hmem => lt_irrefl _ (h.lt _ hmem)

/-- A call that adds an entry, and uses it and list heads only. -/
theorem Represents.effect_add (h : r.Represents s) {s' : RegistryLog}
    {log : List (Use RegistryBlock)} (hids : ∀ id, id ∈ s'.ids ↔ id = s.next ∨ id ∈ s.ids)
    (hnext : s'.next = s.next + 1)
    (hlog : ∀ e ∈ log, ∃ b ∈ (.imports :: (s.next :: s.ids).map .entry) ++
      (RegistryAddr.node s.next).blocks, e = .touch b 0) : Effect s s' log := by
  refine Effect.of_touches (hnext ▸ Nat.le_succ _) (fun id => ?_) h.lt hlog fun b hb => ?_
  · rw [hids, or_comm, hnext]
    refine or_congr_right ⟨?_, fun h => Nat.le_antisymm (Nat.le_of_lt_succ h.2) h.1⟩
    rintro rfl
    exact ⟨le_rfl, Nat.lt_succ_self _⟩
  · rcases List.mem_append.mp hb with hb | hb
    · rcases List.mem_cons.mp hb with rfl | hb
      · exact .inl rfl
      · obtain ⟨id, hid, rfl⟩ := List.mem_map.mp hb
        refine .inr ⟨id, ?_, by simp [RegistryAddr.blocks]⟩
        rcases List.mem_cons.mp hid with rfl | hid
        · exact .inr le_rfl
        · exact .inl hid
    · exact .inr ⟨s.next, .inr le_rfl, hb⟩

theorem Represents.lt_add (h : r.Represents s) {s' : RegistryLog}
    (hids : ∀ id, id ∈ s'.ids ↔ id = s.next ∨ id ∈ s.ids) : ∀ id ∈ s'.ids, id < s.next + 1 := by
  intro id hid
  rcases (hids id).mp hid with rfl | hid
  · exact Nat.lt_succ_self _
  · exact Nat.lt_succ_of_lt (h.lt id hid)

theorem Represents.addFunc (h : r.Represents s) {c : AddFunc}
    (hshort : (RegistryCall.addFunc c).Short) :
    ∃ log r', (RegistryCall.addFunc c).run r = ⟨log, .ok (some s.next, r')⟩ ∧
      r'.Represents (RegistryCall.spec s (.addFunc c)).2 ∧
      Effect s (RegistryCall.spec s (.addFunc c)).2 log := by
  obtain ⟨log, l', hlink, hring, hlog⟩ := link_run
    (r := ⟨r.links, Function.update r.func s.next c.entry, r.glb, s.next + 1⟩)
    h.ring h.nodup h.next_not_mem (ImportHeap.hash_lt c.entry.mname c.entry.nsname)
  have hids : ∀ id, id ∈ (RegistryCall.spec s (.addFunc c)).2.ids ↔ id = s.next ∨ id ∈ s.ids := by
    simp [RegistryCall.spec, RegistryLog.ids]
  refine ⟨.touch (.nsname s.next) 0 :: .touch (.mname s.next) 0 :: log,
    ⟨l', Function.update r.func s.next c.entry, r.glb, s.next + 1⟩, ?_, ⟨fun kind i hi => ?_,
    List.forall_mem_cons.mpr ⟨Function.update_self .., fun x hx => ?_⟩, h.glb,
    List.forall_mem_cons.mpr ⟨hshort, h.short⟩, List.nodup_cons.mpr ⟨h.next_not_mem, h.nodup⟩,
    h.lt_add hids, rfl⟩, h.effect_add hids rfl ?_⟩
  · rw [RegistryCall.run, fwImportsFuncNew]
    simp only [bind_assoc, get_bind_apply, set_bind_apply, emit_bind_apply, h.fresh]
    rw [bind_eq hlink]
    simp
  · rw [RegistryLog.list_addFunc]
    exact hring kind i hi
  · have hne : x.1 ≠ s.next :=
      ne_of_mem_of_not_mem (RegistryLog.mem_ids.mpr (.inl ⟨x.2, hx⟩)) h.next_not_mem
    exact (Function.update_of_ne hne _ _).trans (h.func x hx)
  · refine List.forall_mem_cons.mpr ⟨⟨_, List.mem_append_right _ ?_, rfl⟩, List.forall_mem_cons.mpr
      ⟨⟨_, List.mem_append_right _ ?_, rfl⟩, fun e he => ?_⟩⟩
    · simp [RegistryAddr.blocks]
    · simp [RegistryAddr.blocks]
    · exact (hlog e he).imp fun _ h => ⟨List.mem_append_left _ h.1, h.2⟩

theorem Represents.addGlobal (h : r.Represents s) (c : AddGlobal) :
    ∃ log r', (RegistryCall.addGlobal c).run r = ⟨log, .ok (some s.next, r')⟩ ∧
      r'.Represents (RegistryCall.spec s (.addGlobal c)).2 ∧
      Effect s (RegistryCall.spec s (.addGlobal c)).2 log := by
  obtain ⟨log, l', hlink, hring, hlog⟩ := @link_run
    ⟨r.links, r.func, Function.update r.glb s.next c.entry, s.next + 1⟩ s s.next 0 .glbs h.ring
    h.nodup h.next_not_mem (by decide)
  have hperm : (RegistryCall.spec s (.addGlobal c)).2.ids.Perm (s.next :: s.ids) :=
    List.perm_middle
  have hids : ∀ id, id ∈ (RegistryCall.spec s (.addGlobal c)).2.ids ↔
      id = s.next ∨ id ∈ s.ids := fun id => hperm.mem_iff.trans List.mem_cons
  refine ⟨log, ⟨l', r.func, Function.update r.glb s.next c.entry, s.next + 1⟩, ?_,
    ⟨fun kind i hi => ?_, h.func,
    List.forall_mem_cons.mpr ⟨Function.update_self .., fun x hx => ?_⟩, h.short,
    hperm.nodup_iff.mpr (List.nodup_cons.mpr ⟨h.next_not_mem, h.nodup⟩), h.lt_add hids, rfl⟩,
    h.effect_add hids rfl fun e he => ?_⟩
  · rw [RegistryCall.run, fwImportsGlbNew]
    simp only [bind_assoc, get_bind_apply, set_bind_apply, h.fresh]
    rw [bind_eq hlink]
    simp
  · rw [RegistryLog.list_addGlobal]
    exact hring kind i hi
  · have hne : x.1 ≠ s.next :=
      ne_of_mem_of_not_mem (RegistryLog.mem_ids.mpr (.inr ⟨x.2, hx⟩)) h.next_not_mem
    exact (Function.update_of_ne hne _ _).trans (h.glb x hx)
  · exact (hlog e he).imp fun _ h => ⟨List.mem_append_left _ h.1, h.2⟩

/-! ## Looking a function up

The search follows the links of one bucket and reads the names of each entry on the way. It frees
nothing and changes nothing. -/

/-- The comparisons of `matchFunc`, without their log. -/
def Matches (r : Registry) (mname nsname : List UInt8) (id : ℕ) : Bool :=
  fwStrCmpEq mname (r.func id).mname && fwStrCmpEq nsname (r.func id).nsname

theorem matchFunc_run (r : Registry) (mname nsname : List UInt8) (id : ℕ) :
    ∃ log, matchFunc mname nsname id r = ⟨log, .ok (r.Matches mname nsname id, r)⟩ ∧
      ∀ e ∈ log, ∃ b ∈ (RegistryAddr.node id).blocks, e = .touch b 0 := by
  rw [matchFunc, emit_bind_apply, emit_bind_apply, get_bind_apply, Matches]
  cases fwStrCmpEq mname (r.func id).mname with
  | true =>
    refine ⟨[.touch (.entry id) 0, .touch (.mname id) 0, .touch (.nsname id) 0], rfl, ?_⟩
    simp [RegistryAddr.blocks]
  | false =>
    refine ⟨[.touch (.entry id) 0, .touch (.mname id) 0], rfl, ?_⟩
    simp [RegistryAddr.blocks]

theorem findFrom_head (mname nsname : List UInt8) (head : RegistryAddr) (rounds : ℕ) :
    findFrom mname nsname head (rounds + 1) head = pure none :=
  if_pos rfl

theorem findFrom_node (mname nsname : List UInt8) {head : RegistryAddr} (rounds : ℕ)
    (h : .node id ≠ head) : findFrom mname nsname head (rounds + 1) (.node id) = (do
      if ← matchFunc mname nsname id then pure (some id)
      else do
        onLinks (Links.touch RegistryAddr.owner (.fault .badPtr) (.node id))
        let r ← get
        findFrom mname nsname head rounds (r.links.next (.node id))) :=
  if_neg h

/-- The loop finds the first entry whose names compare equal, by induction on the list. It uses the
blocks of the entries that it passes over, and changes nothing. -/
theorem findFrom_run (mname nsname : List UInt8) {head a : RegistryAddr} {ids : List ℕ}
    {rounds : ℕ} (h : r.links.Linked a (ids.map .node) head) (hhead : head ∉ ids.map .node)
    (hrounds : ids.length < rounds) :
    ∃ log, findFrom mname nsname head rounds (r.links.next a) r =
        ⟨log, .ok (ids.find? (r.Matches mname nsname), r)⟩ ∧
      ∀ e ∈ log, ∃ b ∈ ids.flatMap fun id => (RegistryAddr.node id).blocks, e = .touch b 0 := by
  induction ids generalizing a rounds with
  | nil =>
    obtain ⟨rounds, rfl⟩ := Nat.exists_eq_succ_of_ne_zero (Nat.ne_of_gt hrounds)
    refine ⟨[], ?_, List.forall_mem_nil _⟩
    rw [h.1, findFrom_head]
    rfl
  | cons id ids ih =>
    obtain ⟨rounds, rfl⟩ := Nat.exists_eq_succ_of_ne_zero (Nat.ne_of_gt (Nat.zero_lt_of_lt hrounds))
    obtain ⟨⟨hid, -⟩, h⟩ := h
    obtain ⟨hne, hhead⟩ := not_or.mp (mt List.mem_cons.mpr hhead)
    obtain ⟨log₁, hmatch, hlog₁⟩ := matchFunc_run r mname nsname id
    have hfirst : ∀ e ∈ log₁, ∃ b ∈ (id :: ids).flatMap fun id => (RegistryAddr.node id).blocks,
        e = .touch b 0 := fun e he => by
      obtain ⟨b, hb, he⟩ := hlog₁ e he
      exact ⟨b, List.mem_flatMap.mpr ⟨id, List.mem_cons_self, hb⟩, he⟩
    rw [hid, findFrom_node _ _ _ (Ne.symm hne), bind_eq hmatch, List.find?_cons]
    cases r.Matches mname nsname id with
    | true =>
      refine ⟨log₁, ?_, hfirst⟩
      simp
    | false =>
      obtain ⟨log₂, hrest, hlog₂⟩ := ih h hhead (Nat.lt_of_succ_lt_succ hrounds)
      have htouch : onLinks (Links.touch RegistryAddr.owner (Halt.fault .badPtr) (.node id)) r =
          ⟨[.touch (.entry id) 0], .ok (⟨⟩, r)⟩ := onLinks_eq (Links.touch_run (by rfl) r.links)
      refine ⟨log₁ ++ .touch (.entry id) 0 :: log₂, ?_,
        List.forall_mem_append.mpr ⟨hfirst, List.forall_mem_cons.mpr ⟨?_, fun e he => ?_⟩⟩⟩
      · rw [if_neg Bool.false_ne_true, bind_eq htouch, get_bind_apply, hrest]
        rfl
      · exact ⟨.entry id, List.mem_flatMap.mpr ⟨id, List.mem_cons_self,
          by simp [RegistryAddr.blocks]⟩, rfl⟩
      · obtain ⟨b, hb, he⟩ := hlog₂ e he
        exact ⟨b, List.mem_append_right _ hb, he⟩

/-- On short names, the comparisons say whether the names are these. -/
theorem Represents.matches_eq (h : r.Represents s) {mname nsname : List UInt8}
    (hshort : (RegistryCall.find mname nsname).Short) {x : ℕ × AddFunc} (hx : x ∈ s.funcs) :
    r.Matches mname nsname x.1 =
      decide (cString x.2.mname = mname ∧ cString x.2.nsname = nsname) := by
  obtain ⟨hm, hn⟩ := hshort
  obtain ⟨hm', hn'⟩ := h.short x hx
  have hcmp : r.Matches mname nsname x.1 =
      (fwStrCmpEq mname (cString x.2.mname) && fwStrCmpEq nsname (cString x.2.nsname)) := by
    rw [Matches, h.func x hx]
    rfl
  rw [hcmp, Bool.eq_iff_iff, Bool.and_eq_true, fwStrCmpEq_iff hm hm', fwStrCmpEq_iff hn hn',
    decide_eq_true_iff, eq_comm, eq_comm (a := nsname)]

/-- The first entry in the bucket is the first one at all. -/
theorem Represents.find?_eq (h : r.Represents s) {mname nsname : List UInt8}
    (hshort : (RegistryCall.find mname nsname).Short) :
    (s.list .funcs (fwImportHash mname nsname)).find? (r.Matches mname nsname) =
      (RegistryCall.spec s (.find mname nsname)).1 := by
  rw [RegistryLog.list, List.find?_map, List.find?_filter]
  refine congrArg _ (List.find?_congr fun x hx => ?_)
  rw [Function.comp_apply, h.matches_eq hshort hx]
  by_cases hnames : cString x.2.mname = mname ∧ cString x.2.nsname = nsname
  · obtain ⟨rfl, rfl⟩ := hnames
    simp [AddFunc.hash]
  · simp [hnames]

theorem Represents.length_list (h : r.Represents s) (kind : RegistryKind) (i : ℕ) :
    (s.list kind i).length < r.fresh + 1 :=
  Nat.lt_succ_of_le (Links.length_le_of_lt (RegistryLog.list_nodup h.nodup kind i) fun id hid =>
    h.fresh ▸ h.lt id (RegistryLog.ids_of_mem_list hid))

theorem Represents.find (h : r.Represents s) {mname nsname : List UInt8}
    (hshort : (RegistryCall.find mname nsname).Short) :
    ∃ log, (RegistryCall.find mname nsname).run r =
        ⟨log, .ok ((RegistryCall.spec s (.find mname nsname)).1, r)⟩ ∧ Effect s s log := by
  have hring := h.ring .funcs _ (ImportHeap.hash_lt mname nsname)
  obtain ⟨log, hrun, hlog⟩ := findFrom_run mname nsname hring.linked
    (List.nodup_cons.mp hring.nodup).1 (h.length_list _ _)
  have htouch : onLinks (Links.touch RegistryAddr.owner (Halt.fault .badPtr)
      (.head .funcs (fwImportHash mname nsname))) r = ⟨[.touch .imports 0], .ok (⟨⟩, r)⟩ :=
    onLinks_eq (Links.touch_run (by rfl) r.links)
  refine ⟨.touch .imports 0 :: log, ?_, Effect.of_touches
    (S := .imports :: s.ids.flatMap fun id => (RegistryAddr.node id).blocks) le_rfl (fun id => ?_)
    h.lt (List.forall_mem_cons.mpr ⟨⟨_, List.mem_cons_self, rfl⟩, fun e he => ?_⟩)
    (List.forall_mem_cons.mpr ⟨.inl rfl, fun b hb => ?_⟩)⟩
  · rw [RegistryCall.run, fwImportFuncWrapFind, bind_eq htouch, get_bind_apply, hrun,
      h.find?_eq hshort]
    rfl
  · exact (or_iff_left fun hid => absurd hid.2 (Nat.not_lt.mpr hid.1)).symm
  · obtain ⟨b, hb, he⟩ := hlog e he
    obtain ⟨id, hid, hb⟩ := List.mem_flatMap.mp hb
    exact ⟨b, List.mem_cons_of_mem _ (List.mem_flatMap.mpr
      ⟨id, RegistryLog.ids_of_mem_list hid, hb⟩), he⟩
  · obtain ⟨id, hid, hb⟩ := List.mem_flatMap.mp hb
    exact .inr ⟨id, .inl hid, hb⟩

/-! ## Freeing the entries

The loop goes over all kinds and all buckets, and takes each list apart from its front. An entry is
freed behind its names, and the next one was read before. -/

/-- Every bucket, in the order in which `fw_imports_wrap_free` goes through them. -/
def heads : List RegistryAddr :=
  (List.range fwMaxImportHash).flatMap fun i => RegistryKind.all.map fun kind => .head kind i

/-- The elements of a bucket, as addresses of their list heads. -/
def elements (s : RegistryLog) : RegistryAddr → List RegistryAddr
  | .head kind i => (s.list kind i).map .node
  | .null | .poison1 | .poison2 | .node _ => []

theorem mem_heads {a : RegistryAddr} :
    a ∈ heads ↔ ∃ kind, ∃ i < fwMaxImportHash, a = .head kind i := by
  have hall (kind : RegistryKind) : kind ∈ RegistryKind.all := by cases kind <;> decide
  simp only [heads, List.mem_flatMap, List.mem_range, List.mem_map]
  refine ⟨?_, ?_⟩
  · rintro ⟨i, hi, kind, -, rfl⟩
    exact ⟨kind, i, hi, rfl⟩
  · rintro ⟨kind, i, hi, rfl⟩
    exact ⟨i, hi, kind, hall kind, rfl⟩

/-- The elements of all buckets are the entries, each in one place. -/
theorem mem_elements {a : RegistryAddr} :
    a ∈ heads.flatMap (elements s) ↔ ∃ id ∈ s.ids, a = .node id := by
  rw [List.mem_flatMap]
  refine ⟨?_, ?_⟩
  · rintro ⟨b, hb, ha⟩
    obtain ⟨kind, i, -, rfl⟩ := mem_heads.mp hb
    obtain ⟨id, hid, rfl⟩ := List.mem_map.mp ha
    exact ⟨id, RegistryLog.ids_of_mem_list hid, rfl⟩
  · rintro ⟨id, hid, rfl⟩
    obtain ⟨kind, i, hi, hid⟩ := RegistryLog.exists_list hid
    exact ⟨.head kind i, mem_heads.mpr ⟨kind, i, hi, rfl⟩, List.mem_map_of_mem hid⟩

theorem elements_apart (h : s.ids.Nodup) :
    heads.Pairwise fun a b => List.Disjoint (a :: elements s a) (b :: elements s b) := by
  refine List.Nodup.pairwise_of_forall_ne (by decide) fun a ha b hb hne => ?_
  obtain ⟨kind, i, -, rfl⟩ := mem_heads.mp ha
  obtain ⟨kind', j, -, rfl⟩ := mem_heads.mp hb
  refine heads_apart h (not_and_or.mp ?_)
  rintro ⟨rfl, rfl⟩
  exact hne rfl

/-- No block is freed for two elements, since no entry is in two buckets. -/
theorem elements_blocks_nodup (h : s.ids.Nodup) :
    ((heads.flatMap (elements s)).flatMap RegistryAddr.blocks).Nodup := by
  have hnodup : (heads.flatMap (elements s)).Nodup := by
    refine List.nodup_flatMap.mpr ⟨fun a ha => ?_, (elements_apart h).imp fun hdisj => ?_⟩
    · obtain ⟨kind, i, -, rfl⟩ := mem_heads.mp ha
      exact (RegistryLog.list_nodup h kind i).map fun _ _ => RegistryAddr.node.inj
    · exact fun x hx hx' => hdisj (List.mem_cons_of_mem _ hx) (List.mem_cons_of_mem _ hx')
  refine List.nodup_flatMap.mpr
    ⟨fun a ha => ?_, hnodup.pairwise_of_forall_ne fun a ha b hb hne => ?_⟩
  · obtain ⟨id, -, rfl⟩ := mem_elements.mp ha
    exact blocks_nodup id
  · obtain ⟨id, -, rfl⟩ := mem_elements.mp ha
    obtain ⟨id', -, rfl⟩ := mem_elements.mp hb
    exact fun c hc hc' => hne (congrArg _ (eq_of_mem_blocks hc hc'))

theorem fwImportsWrapFree_eq (r : Registry) : fwImportsWrapFree r =
    onLinks (forEach (Links.dropEach RegistryAddr.owner RegistryAddr.blocks .poison1 .poison2
      (.fault .badPtr) .fuel (r.fresh + 1)) heads) r := by
  rw [fwImportsWrapFree, get_bind_apply, heads, ← Links.forEach_nested]
  simp only [← Links.forEach_map]

theorem Represents.free (h : r.Represents s) :
    ∃ log r', RegistryCall.free.run r = ⟨log, .ok (none, r')⟩ ∧
      r'.Represents (RegistryCall.spec s .free).2 ∧ Effect s (RegistryCall.spec s .free).2 log := by
  have hring : ∀ a ∈ heads, r.links.Ring a (elements s a) := by
    intro a ha
    obtain ⟨kind, i, hi, rfl⟩ := mem_heads.mp ha
    exact h.ring kind i hi
  have hlength : ∀ a ∈ heads, (elements s a).length < r.fresh + 1 := by
    intro a ha
    obtain ⟨kind, i, -, rfl⟩ := mem_heads.mp ha
    rw [elements, List.length_map]
    exact h.length_list kind i
  have howner : ∀ a ∈ heads, ∀ b ∈ a :: elements s a, b.owner = some (ownerOf b) := by
    intro a ha
    obtain ⟨kind, i, -, rfl⟩ := mem_heads.mp ha
    exact owner_bucket kind i _
  have hhead : ∀ a ∈ heads, ownerOf a = .imports := by
    intro a ha
    obtain ⟨kind, i, -, rfl⟩ := mem_heads.mp ha
    rfl
  have hheads : ∀ a ∈ heads, ∀ b ∈ heads.flatMap (elements s), ownerOf a ∉ b.blocks := by
    intro a ha b hb
    obtain ⟨id, -, rfl⟩ := mem_elements.mp hb
    rw [hhead a ha]
    exact imports_not_mem id
  have hown : ∀ a ∈ heads.flatMap (elements s), ∀ b ∈ heads.flatMap (elements s),
      ownerOf b ∈ a.blocks → a = b := by
    intro a ha b hb hmem
    obtain ⟨id, -, rfl⟩ := mem_elements.mp ha
    obtain ⟨id', -, rfl⟩ := mem_elements.mp hb
    exact congrArg _ (eq_of_mem_blocks hmem (by simp [ownerOf, RegistryAddr.owner,
      RegistryAddr.blocks]))
  obtain ⟨log, l', hrun, hfreed, htidy, huses, hrings, -⟩ := Links.dropLists_run
    RegistryAddr.blocks .poison1 .poison2 (Halt.fault .badPtr) .fuel hring (elements_apart h.nodup)
    hlength howner (elements_blocks_nodup h.nodup) hheads hown
  refine ⟨log, { r with links := l' }, ?_, ⟨fun kind i hi => ?_, List.forall_mem_nil _,
    List.forall_mem_nil _, List.forall_mem_nil _, List.nodup_nil, List.forall_mem_nil _,
    h.fresh⟩, ⟨le_rfl, List.forall_mem_nil _, List.forall_mem_nil _, htidy, ?_, fun b => ?_,
    fun e he => ?_⟩⟩
  · rw [RegistryCall.run, bind_eq ((fwImportsWrapFree_eq r).trans (onLinks_eq hrun))]
    simp
  · have hlist : (RegistryCall.spec s .free).2.list kind i = [] := by
      cases kind <;> simp [RegistryCall.spec, RegistryLog.list]
    rw [hlist]
    exact hrings _ (mem_heads.mpr ⟨kind, i, hi, rfl⟩)
  · rw [hfreed]
    exact elements_blocks_nodup h.nodup
  · rw [hfreed, List.mem_flatMap]
    refine ⟨?_, ?_⟩
    · rintro ⟨a, ha, hb⟩
      obtain ⟨id, hid, rfl⟩ := mem_elements.mp ha
      exact ⟨id, .inl hid, List.not_mem_nil, hb⟩
    · rintro ⟨id, hid | ⟨hle, hlt⟩, -, hb⟩
      · exact ⟨_, mem_elements.mpr ⟨id, hid, rfl⟩, hb⟩
      · exact absurd hlt (Nat.not_lt.mpr hle)
  · rcases huses e he with ⟨a, ha, hea⟩ | ⟨a, ha, hea⟩
    · exact .inl (hea.trans (hhead a ha))
    · obtain ⟨id, hid, rfl⟩ := mem_elements.mp ha
      refine .inr ⟨id, .inl hid, hea.elim (fun hea => ?_) fun hea => hea⟩
      rw [hea]
      simp [ownerOf, RegistryAddr.owner, RegistryAddr.blocks]

/-! ## All calls

One call keeps the relation and has its effect; the rest is induction. -/

/-- One call, whichever it is: what it returns, and what it does to the blocks. -/
theorem Represents.step (h : r.Represents s) {call : RegistryCall} (hshort : call.Short) :
    ∃ log r', call.run r = ⟨log, .ok ((call.spec s).1, r')⟩ ∧ r'.Represents (call.spec s).2 ∧
      Effect s (call.spec s).2 log := by
  cases call with
  | addFunc c => exact h.addFunc hshort
  | addGlobal c => exact h.addGlobal c
  | find mname nsname =>
    obtain ⟨log, hrun, heffect⟩ := h.find hshort
    exact ⟨log, r, hrun, h, heffect⟩
  | free => exact h.free

/-- Calls in any order, by induction on them. -/
theorem Represents.run (h : r.Represents s) {calls : List RegistryCall}
    (hshort : ∀ call ∈ calls, call.Short) :
    ∃ log r', RegistryCall.runAll calls r = ⟨log, .ok ((RegistryCall.specAll s calls).1, r')⟩ ∧
      r'.Represents (RegistryCall.specAll s calls).2 ∧
      Effect s (RegistryCall.specAll s calls).2 log := by
  induction calls generalizing r s with
  | nil => exact ⟨[], r, rfl, h, Effect.refl h.lt⟩
  | cons call calls ih =>
    obtain ⟨hcall, hcalls⟩ := List.forall_mem_cons.mp hshort
    obtain ⟨log, r₁, hrun, h₁, heffect⟩ := h.step hcall
    obtain ⟨log', r', hrun', h', heffect'⟩ := ih h₁ hcalls
    refine ⟨log ++ log', r', ?_, h', heffect.trans heffect' h.lt⟩
    rw [RegistryCall.runAll, bind_eq hrun, bind_eq hrun']
    simp [RegistryCall.specAll]

end Steps

/-- Whatever calls are made of a new registry, in any order and any number, they return what the log
of its entries says, and never touch a block that was freed. The names and the entries that are
freed, each once, are those that were added before the last `fw_imports_wrap_free`. The names are
shorter than `2 ^ 32` bytes (`hshort`), since their lengths are 32-bit numbers. -/
theorem registry_run {calls : List RegistryCall} (hshort : ∀ call ∈ calls, call.Short) :
    ∃ log r, RegistryCall.runAll calls fwImportsWrapNew =
        ⟨log, .ok ((RegistryCall.specAll .new calls).1, r)⟩ ∧
      r.Represents (RegistryCall.specAll .new calls).2 ∧ Tidy log ∧ (freed log).Nodup ∧
      ∀ b, b ∈ freed log ↔ ∃ id < (RegistryCall.specAll .new calls).2.next,
        id ∉ (RegistryCall.specAll .new calls).2.ids ∧ b ∈ (RegistryAddr.node id).blocks := by
  obtain ⟨log, r, hrun, h, heffect⟩ := represents_new.run hshort
  refine ⟨log, r, hrun, h, heffect.tidy, heffect.nodup, fun b => (heffect.freed_iff b).trans ?_⟩
  refine exists_congr fun id => and_congr_left fun _ => ⟨?_, fun hid => ?_⟩
  · rintro (hid | ⟨-, hid⟩)
    · cases hid
    · exact hid
  · exact .inr ⟨Nat.zero_le _, hid⟩

/-- A function is added, the registry is emptied, and the function is looked up. -/
def emptied : List RegistryCall := [.addFunc ⟨[0x61], [], some 1, 0, 0⟩, .free, .find [0x61] []]

/-- It is gone, with its names: the third call finds nothing. -/
theorem emptied_run : ∃ log r, RegistryCall.runAll emptied fwImportsWrapNew =
    ⟨log, .ok ([some 0, none, none], r)⟩ ∧ Tidy log ∧ RegistryBlock.mname 0 ∈ freed log := by
  obtain ⟨log, r, hrun, -, htidy, -, hfreed⟩ := registry_run
    (show ∀ call ∈ emptied, call.Short by simp [emptied, RegistryCall.Short, cString])
  refine ⟨log, r, hrun, htidy, (hfreed _).mpr ⟨0, ?_, ?_, ?_⟩⟩
  · decide
  · decide
  · decide

/-! ## The registry of a compilation

`ImportHeap` is the same registry with what a compilation needs of it: the lists of functions, to
which `add_func` adds and in which `find` searches. It has no globals, nothing in it is freed, and
nothing is logged. After the same calls of `add_func` a search returns the same entry of both. -/

/-- A heap of functions holds the functions of a log, each at the address of its number. This is
what the two models of a registry have in common, and `add_func` keeps it (`Agrees.addFunc`). -/
structure Agrees (heap : ImportHeap) (s : RegistryLog) : Prop where
  /-- the lists -/
  holds : heap.Holds (s.funcs.map fun x => .node x.1)
  /-- the entries -/
  func : ∀ x ∈ s.funcs, heap.func (.node x.1) = x.2.entry
  /-- the number of entries -/
  fresh : heap.fresh = s.next

theorem agrees_new : Agrees ImportHeap.fwImportsWrapNew .new :=
  ⟨ImportHeap.holds_new, by simp [RegistryLog.new], rfl⟩

theorem Agrees.addFunc {heap : ImportHeap} {s : RegistryLog} (h : Agrees heap s) (c : AddFunc) :
    Agrees (heap.fwImportsFuncNew c).2 (RegistryCall.spec s (.addFunc c)).2 := by
  refine ⟨?_, List.forall_mem_cons.mpr ⟨?_, fun x hx => ?_⟩, congrArg (· + 1) h.fresh⟩
  · have hnew := h.holds.new c
    rwa [h.fresh] at hnew
  · rw [← h.fresh]
    exact ImportHeap.func_new_self heap c
  · rw [h.holds.func_new c (List.mem_map_of_mem hx), h.func x hx]

/-- Calls of `add_func`, by induction on them, keep the two models together. -/
theorem Agrees.run {heap : ImportHeap} {s : RegistryLog} (h : Agrees heap s)
    (calls : List AddFunc) : Agrees (calls.foldl (fun heap c => (heap.fwImportsFuncNew c).2) heap)
      (RegistryCall.specAll s (calls.map .addFunc)).2 := by
  induction calls generalizing heap s with
  | nil => exact h
  | cons c calls ih => exact ih (h.addFunc c)

/-- A search of a heap of functions returns the entry of the log that the search is for. -/
theorem Agrees.find {heap : ImportHeap} {s : RegistryLog} (h : Agrees heap s)
    (hshort : ∀ x ∈ s.funcs, (RegistryCall.addFunc x.2).Short) {mname nsname : List UInt8}
    (hname : (RegistryCall.find mname nsname).Short) :
    heap.fwImportFuncWrapFind mname nsname =
      .ok ((RegistryCall.spec s (.find mname nsname)).1.map .node) := by
  have hlog : ∀ a ∈ s.funcs.map fun x => ListAddr.node x.1, heap.Short a := by
    refine List.forall_mem_map.mpr fun x hx => ?_
    rw [ImportHeap.Short, h.func x hx]
    exact hshort x hx
  rw [h.holds.find hlog hname.1 hname.2, List.find?_map, RegistryCall.spec, Option.map_map]
  refine congrArg (fun o => Except.ok (Option.map _ o)) (List.find?_congr fun x hx => ?_)
  rw [Function.comp_apply, decide_eq_decide, ImportHeap.Named, h.func x hx]
  rfl

/-- The entries of the two models are the same, as far as their contents go. -/
theorem Agrees.func_eq {heap : ImportHeap} {r : Registry} {s : RegistryLog} (h : Agrees heap s)
    (hr : r.Represents s) {mname nsname : List UInt8} {id : ℕ}
    (hid : id ∈ (RegistryCall.spec s (.find mname nsname)).1) :
    heap.func (.node id) = r.func id := by
  obtain ⟨x, hx, rfl⟩ := Option.map_eq_some_iff.mp hid
  have hmem := List.mem_of_find?_eq_some hx
  exact (h.func x hmem).trans (hr.func x hmem).symm

/-- After the same calls of `add_func`, a search of the registry returns the entry that a search of
the lists of functions returns, at the address of its number and with the same contents. So what
`ImportHeap.registry_latest` says of the entries found holds of a registry whose uses are logged,
and what `registry_run` says of a registry covers the searches of a compilation. As in both of
them, names are shorter than `2 ^ 32` bytes. -/
theorem find_agrees {calls : List AddFunc} (hshort : ∀ c ∈ calls, (RegistryCall.addFunc c).Short) :
    ∃ log rets r, RegistryCall.runAll (calls.map .addFunc) fwImportsWrapNew =
        ⟨log, .ok (rets, r)⟩ ∧
      ∀ mname nsname, (RegistryCall.find mname nsname).Short →
        ∃ log' found, fwImportFuncWrapFind mname nsname r = ⟨log', .ok (found, r)⟩ ∧
          (ImportHeap.registered calls).fwImportFuncWrapFind mname nsname =
            .ok (found.map .node) ∧
          ∀ id ∈ found, (ImportHeap.registered calls).func (.node id) = r.func id := by
  have hcalls : ∀ call ∈ calls.map RegistryCall.addFunc, call.Short :=
    List.forall_mem_map.mpr hshort
  obtain ⟨log, r, hrun, h, -⟩ := represents_new.run hcalls
  have hagrees := agrees_new.run calls
  refine ⟨log, _, r, hrun, fun mname nsname hname => ?_⟩
  obtain ⟨log', hfind, -⟩ := h.find hname
  exact ⟨log', _, hfind, hagrees.find h.short hname, fun id hid => hagrees.func_eq h hid⟩

end Registry

end FastWasm
