import FastWasm.Compile
import FastWasm.LinkedList
import Mathlib.Data.List.Find

/-!
# The registry of host functions (`jit/fw_compile.c`)

The entries of host functions are allocated one by one and linked into one of eight lists, by the
first bytes of their two names. The lists are the buckets that `fwImportFuncWrapFind` searches, and
the buckets are a map from pairs of names in which the latest entry wins.

Three descriptions of the registry are connected here: a heap with list heads and pointers, as the
source has it; a list of entries for each hash; and the sequence of the calls. Inserting goes to the
head of a list and searching goes from the head on, so a search of the heap finds what a search of
the list finds, and that is the last call with the two names. That two names with one hash are in
one list is by definition, and that equal names have one hash is all that the hash is needed for.
-/

namespace FastWasm

/-! ## The heap

A list head is one of the eight in the registry or the one in an entry. What is in an entry besides
is its contents, which are set when it is allocated and never changed. -/

/-- `FW_MAX_IMPORT_HASH` -/
def fwMaxImportHash : ℕ := 8

/-- The address of a list head, where there may be none. -/
inductive ListAddr where
  /-- `NULL` -/
  | null
  /-- `&funcs->funcs[hash]` -/
  | head (hash : ℕ)
  /-- `&func->node` of the entry allocated after so many others -/
  | node (id : ℕ)
  deriving DecidableEq, Repr

/-- `fw_import_func_t` with all its fields but the list head. -/
structure ImportFuncEntry extends FwImportFunc where
  /-- the number of arguments -/
  argc : UInt8
  /-- the number of results -/
  retc : UInt8
  deriving DecidableEq, Repr

/-- The memory of the registry: the entries, and the links of the eight list heads and of the
entries. -/
structure ImportHeap where
  /-- the list heads -/
  links : Links ListAddr
  /-- the entry around a list head -/
  func : ListAddr → ImportFuncEntry
  /-- the number of entries allocated -/
  fresh : ℕ

/-- The arguments of a call of `add_func`, which are copied. -/
structure AddFunc where
  /-- the bytes from `mname` on -/
  mname : List UInt8
  /-- the bytes from `nsname` on -/
  nsname : List UInt8
  /-- the host function -/
  faddr : Option ℕ
  /-- the number of arguments -/
  argc : UInt8
  /-- the number of results -/
  retc : UInt8

/-- The entry that a call of `add_func` allocates, with its names up to their first zero. -/
def AddFunc.entry (c : AddFunc) : ImportFuncEntry :=
  ⟨⟨cString c.mname, cString c.nsname, c.faddr⟩, c.argc, c.retc⟩

/-- The names of a call of `add_func` are these, as C strings. -/
def AddFunc.Names (c : AddFunc) (mname nsname : List UInt8) : Prop :=
  cString c.mname = mname ∧ cString c.nsname = nsname

/-- For names shorter than `2 ^ 32` bytes, `fw_str_cmp` is 0 when they are equal. -/
theorem fwStrCmpEq_iff {a b : List UInt8} (ha : a.length < 2 ^ 32) (hb : b.length < 2 ^ 32) :
    fwStrCmpEq a b ↔ a = b := by
  simp only [fwStrCmpEq, Nat.mod_eq_of_lt ha, Nat.mod_eq_of_lt hb, Bool.and_eq_true,
    decide_eq_true_iff]
  refine ⟨?_, ?_⟩
  · rintro ⟨hlen, h⟩
    rwa [List.take_length, hlen, List.take_length] at h
  · rintro rfl
    exact ⟨rfl, rfl⟩

namespace ImportHeap

/-- The hash of an entry, by the first bytes of its names. -/
def hash (heap : ImportHeap) (a : ListAddr) : ℕ :=
  fwImportHash (heap.func a).mname (heap.func a).nsname

/-- `fw_imports_wrap_new`: the memory is cleared, and the lists of the functions are set up. -/
def fwImportsWrapNew : ImportHeap where
  links := (List.range fwMaxImportHash).foldl (fun l i => l.initListHead (.head i))
    ⟨fun _ => .null, fun _ => .null⟩
  func _ := ⟨⟨[], [], none⟩, 0, 0⟩
  fresh := 0

/-- `fw_import_func_wrap_insert` -/
def fwImportFuncWrapInsert (heap : ImportHeap) (func : ListAddr) : ImportHeap :=
  { heap with links := heap.links.listAdd func (.head (heap.hash func)) }

/-- `fw_imports_func_new`: the new entry and the registry with it. -/
def fwImportsFuncNew (heap : ImportHeap) (c : AddFunc) : ListAddr × ImportHeap :=
  let ret : ListAddr := .node heap.fresh
  let heap : ImportHeap :=
    ⟨heap.links.initListHead ret, Function.update heap.func ret c.entry, heap.fresh + 1⟩
  (ret, heap.fwImportFuncWrapInsert ret)

/-- `fw_import_func_wrap_find`. No list is longer than the number of entries. -/
def fwImportFuncWrapFind (heap : ImportHeap) (mname nsname : List UInt8) :
    Except Halt (Option ListAddr) :=
  let head : ListAddr := .head (fwImportHash mname nsname)
  let found func := fwStrCmpEq mname (heap.func func).mname &&
    fwStrCmpEq nsname (heap.func func).nsname
  match heap.links.listFindFrom head found (heap.fresh + 1) (heap.links.next head) with
  | none => .error .fuel
  | some func => .ok func

/-- The registry after some calls of `add_func`, from a new one. -/
def registered (calls : List AddFunc) : ImportHeap :=
  calls.foldl (fun heap c => (heap.fwImportsFuncNew c).2) fwImportsWrapNew

/-! ## The lists

Inserting changes one list, and puts the entry in front. -/

/-- The entries of a hash among those of a list, in the same order. -/
def bucket (heap : ImportHeap) (log : List ListAddr) (i : ℕ) : List ListAddr :=
  log.filter fun a => heap.hash a = i

/-- The entries of a registry, the latest first: they were allocated, and each of them is in the
list of its hash. -/
structure Holds (heap : ImportHeap) (log : List ListAddr) : Prop where
  /-- the lists -/
  ring : ∀ i < fwMaxImportHash, heap.links.Ring (.head i) (heap.bucket log i)
  /-- the addresses -/
  node : ∀ a ∈ log, ∃ id < heap.fresh, a = .node id
  /-- the number of entries -/
  length_le : log.length ≤ heap.fresh

theorem hash_lt (mname nsname : List UInt8) : fwImportHash mname nsname < fwMaxImportHash :=
  Nat.mod_lt _ (by decide)

theorem holds_new : fwImportsWrapNew.Holds [] := by
  refine ⟨fun i hi => ?_, by simp, le_rfl⟩
  -- what is set up later leaves a list head alone
  have h : ∀ (n : ℕ) (l : Links ListAddr), i < n →
      ((List.range n).foldl (fun l i => l.initListHead (.head i)) l).Ring (.head i) [] := by
    intro n l
    induction n with
    | zero => exact fun h => absurd h (Nat.not_lt_zero _)
    | succ n ih =>
      intro hlt
      rw [List.range_succ, List.foldl_append, List.foldl_cons, List.foldl_nil]
      by_cases hn : i = n
      · rw [hn]
        exact Links.ring_initListHead _ _
      · refine (ih (by omega)).congr fun x hx => Links.initListHead_of_ne ?_
        rw [List.mem_singleton.mp hx]
        exact fun h => hn (ListAddr.head.inj h)
  exact h _ _ hi

theorem Holds.fresh_not_mem {heap : ImportHeap} {log : List ListAddr} (h : heap.Holds log) :
    .node heap.fresh ∉ log := by
  intro hmem
  obtain ⟨id, hid, he⟩ := h.node _ hmem
  rw [ListAddr.node.inj he] at hid
  exact lt_irrefl _ hid

theorem Holds.head_not_mem {heap : ImportHeap} {log : List ListAddr} (h : heap.Holds log)
    (i j : ℕ) : .head i ∉ heap.bucket log j := by
  intro hmem
  obtain ⟨id, -, he⟩ := h.node _ (List.mem_filter.mp hmem).1
  cases he

/-- The lists of two hashes have nothing in common, not even a head. -/
theorem Holds.apart {heap : ImportHeap} {log : List ListAddr} (h : heap.Holds log) {i j : ℕ}
    (hij : i ≠ j) : ∀ a ∈ .head i :: heap.bucket log i, a ∉ .head j :: heap.bucket log j := by
  intro a ha ha'
  rcases List.mem_cons.mp ha with rfl | ha
  · rcases List.mem_cons.mp ha' with he | ha'
    · exact hij (ListAddr.head.inj he)
    · exact h.head_not_mem i j ha'
  · rcases List.mem_cons.mp ha' with rfl | ha'
    · exact h.head_not_mem j i ha
    · have hi := of_decide_eq_true (List.mem_filter.mp ha).2
      have hj := of_decide_eq_true (List.mem_filter.mp ha').2
      exact hij (hi.symm.trans hj)

theorem func_new_self (heap : ImportHeap) (c : AddFunc) :
    (heap.fwImportsFuncNew c).2.func (.node heap.fresh) = c.entry :=
  Function.update_self ..

theorem Holds.func_new {heap : ImportHeap} {log : List ListAddr} (h : heap.Holds log) (c : AddFunc)
    {a : ListAddr} (ha : a ∈ log) : (heap.fwImportsFuncNew c).2.func a = heap.func a :=
  Function.update_of_ne (ne_of_mem_of_not_mem ha h.fresh_not_mem) _ _

/-- The new entry is in the list of its hash, in front, and in no other list. -/
theorem Holds.bucket_new {heap : ImportHeap} {log : List ListAddr} (h : heap.Holds log)
    (c : AddFunc) (i : ℕ) :
    (heap.fwImportsFuncNew c).2.bucket (.node heap.fresh :: log) i =
      if fwImportHash (cString c.mname) (cString c.nsname) = i then
        .node heap.fresh :: heap.bucket log i
      else heap.bucket log i := by
  have hlog : (heap.fwImportsFuncNew c).2.bucket log i = heap.bucket log i :=
    List.filter_congr fun a ha => by rw [hash, h.func_new c ha, hash]
  have hhash : (heap.fwImportsFuncNew c).2.hash (.node heap.fresh) =
      fwImportHash (cString c.mname) (cString c.nsname) := by
    rw [hash, func_new_self]
    rfl
  rw [bucket, List.filter_cons, hhash, ← bucket, hlog]
  simp only [decide_eq_true_iff]

theorem links_new (heap : ImportHeap) (c : AddFunc) : (heap.fwImportsFuncNew c).2.links =
    (heap.links.initListHead (.node heap.fresh)).listAdd (.node heap.fresh)
      (.head (fwImportHash (cString c.mname) (cString c.nsname))) := by
  simp only [fwImportsFuncNew, fwImportFuncWrapInsert, hash, Function.update_self]
  rfl

/-- A new entry comes first, and the entries before it stay. It goes into the bucket of its hash;
the rings of the other buckets share no list head with it. -/
theorem Holds.new {heap : ImportHeap} {log : List ListAddr} (h : heap.Holds log) (c : AddFunc) :
    (heap.fwImportsFuncNew c).2.Holds (.node heap.fresh :: log) := by
  refine ⟨fun i hi => ?_, ?_, Nat.succ_le_succ h.length_le⟩
  · have hnew (j : ℕ) : .node heap.fresh ∉ .head j :: heap.bucket log j := by
      rw [List.mem_cons, not_or]
      exact ⟨ListAddr.noConfusion, fun hmem => h.fresh_not_mem (List.mem_filter.mp hmem).1⟩
    -- setting up the new list head does not touch the lists
    have hring (j : ℕ) (hj : j < fwMaxImportHash) :
        (heap.links.initListHead (.node heap.fresh)).Ring (.head j) (heap.bucket log j) :=
      (h.ring j hj).congr fun x hx =>
        Links.initListHead_of_ne (ne_of_mem_of_not_mem hx (hnew j))
    have hk := hash_lt (cString c.mname) (cString c.nsname)
    rw [links_new, h.bucket_new]
    by_cases hi' : fwImportHash (cString c.mname) (cString c.nsname) = i
    · rw [if_pos hi', ← hi']
      exact (hring _ hk).listAdd (hnew _)
    · rw [if_neg hi']
      exact (hring _ hk).listAdd_apart (hring i hi) (hnew i) (h.apart (Ne.symm hi'))
  · intro a ha
    rcases List.mem_cons.mp ha with rfl | ha
    · exact ⟨heap.fresh, Nat.lt_succ_self _, rfl⟩
    · obtain ⟨id, hid, rfl⟩ := h.node a ha
      exact ⟨id, Nat.lt_succ_of_lt hid, rfl⟩

/-- Further calls of `add_func` put their entries first, and leave the others as they are. By
induction on the calls: each entry has the names and the address that its own call was given. -/
theorem Holds.run {heap : ImportHeap} {log : List ListAddr} (h : heap.Holds log)
    (calls : List AddFunc) :
    let heap' := calls.foldl (fun heap c => (heap.fwImportsFuncNew c).2) heap
    ∃ log', heap'.Holds (log' ++ log) ∧ (∀ a ∈ log', ∃ c ∈ calls, heap'.func a = c.entry) ∧
      (∀ c ∈ calls, ∃ a ∈ log', heap'.func a = c.entry) ∧
      ∀ a ∈ log, heap'.func a = heap.func a := by
  induction calls generalizing heap log with
  | nil => exact ⟨[], h, by simp, by simp, fun _ _ => rfl⟩
  | cons c calls ih =>
    have hself := func_new_self heap c
    obtain ⟨log', h', hlog', hcalls, hsame⟩ := ih (h.new c)
    obtain ⟨hfirst, hsame⟩ := List.forall_mem_cons.mp hsame
    refine ⟨log' ++ [.node heap.fresh], by rwa [List.append_assoc], ?_, ?_, fun a ha =>
      (hsame a ha).trans (h.func_new c ha)⟩
    · intro a ha
      rcases List.mem_append.mp ha with ha | ha
      · obtain ⟨c', hc', he⟩ := hlog' a ha
        exact ⟨c', List.mem_cons_of_mem _ hc', he⟩
      · rw [List.mem_singleton.mp ha]
        exact ⟨c, List.mem_cons_self, hfirst.trans hself⟩
    · intro c' hc'
      rcases List.mem_cons.mp hc' with rfl | hc'
      · exact ⟨_, List.mem_append_right _ List.mem_cons_self, hfirst.trans hself⟩
      · obtain ⟨a, ha, he⟩ := hcalls c' hc'
        exact ⟨a, List.mem_append_left _ ha, he⟩

/-! ## Lookup

A search goes over one list and compares both names. What it finds is the first entry of that list
with the names, and so the first of all entries with them. -/

/-- The names of an entry are these, byte by byte. -/
def Named (heap : ImportHeap) (mname nsname : List UInt8) (a : ListAddr) : Prop :=
  (heap.func a).mname = mname ∧ (heap.func a).nsname = nsname

instance (heap : ImportHeap) (mname nsname : List UInt8) :
    DecidablePred (heap.Named mname nsname) := fun _ => inferInstanceAs (Decidable (_ ∧ _))

/-- The names of an entry are shorter than `2 ^ 32` bytes. -/
def Short (heap : ImportHeap) (a : ListAddr) : Prop :=
  (heap.func a).mname.length < 2 ^ 32 ∧ (heap.func a).nsname.length < 2 ^ 32

/-- `find` returns the first entry of the list of the hash whose names compare equal. -/
theorem Holds.find_bucket {heap : ImportHeap} {log : List ListAddr} (h : heap.Holds log)
    (mname nsname : List UInt8) : heap.fwImportFuncWrapFind mname nsname =
      .ok ((heap.bucket log (fwImportHash mname nsname)).find? fun a =>
        fwStrCmpEq mname (heap.func a).mname && fwStrCmpEq nsname (heap.func a).nsname) := by
  have hlen : (heap.bucket log (fwImportHash mname nsname)).length < heap.fresh + 1 :=
    Nat.lt_succ_of_le ((List.length_filter_le _ _).trans h.length_le)
  rw [fwImportFuncWrapFind, (h.ring _ (hash_lt mname nsname)).listFindFrom hlen]

/-- `find` returns the first entry with the names, whatever list it is in, since entries with equal
names have one hash. -/
theorem Holds.find {heap : ImportHeap} {log : List ListAddr} (h : heap.Holds log)
    (hshort : ∀ a ∈ log, heap.Short a) {mname nsname : List UInt8} (hm : mname.length < 2 ^ 32)
    (hn : nsname.length < 2 ^ 32) : heap.fwImportFuncWrapFind mname nsname =
      .ok (log.find? fun a => heap.Named mname nsname a) := by
  have hfound (a : ListAddr) (ha : a ∈ log) : (fwStrCmpEq mname (heap.func a).mname &&
      fwStrCmpEq nsname (heap.func a).nsname) = decide (heap.Named mname nsname a) := by
    obtain ⟨hm', hn'⟩ := hshort a ha
    rw [Bool.eq_iff_iff, Bool.and_eq_true, fwStrCmpEq_iff hm hm', fwStrCmpEq_iff hn hn',
      decide_eq_true_iff, Named, eq_comm, eq_comm (a := nsname)]
  rw [h.find_bucket, bucket, List.find?_filter]
  refine congrArg _ (List.find?_congr fun a ha => ?_)
  rw [hfound a ha]
  -- an entry with the names has their hash
  by_cases hnamed : heap.Named mname nsname a
  · obtain ⟨rfl, rfl⟩ := hnamed
    simp [hash]
  · simp [hnamed]

/-- A run of `add_func` calls from the empty registry. -/
theorem exists_holds_registered (calls : List AddFunc) :
    ∃ log, (registered calls).Holds log ∧
      (∀ a ∈ log, ∃ c ∈ calls, (registered calls).func a = c.entry) ∧
      ∀ c ∈ calls, ∃ a ∈ log, (registered calls).func a = c.entry := by
  obtain ⟨log, h, hlog, hcalls, -⟩ := holds_new.run calls
  rw [List.append_nil] at h
  exact ⟨log, h, hlog, hcalls⟩

theorem registered_append (pre post : List AddFunc) (c : AddFunc) :
    registered (pre ++ c :: post) = post.foldl (fun heap c => (heap.fwImportsFuncNew c).2)
      ((registered pre).fwImportsFuncNew c).2 := by
  rw [registered, List.foldl_append, List.foldl_cons]
  rfl

/-- A node with the entry of a call has the names that the call gives. -/
theorem named_iff {heap : ImportHeap} {a : ListAddr} {c : AddFunc} (he : heap.func a = c.entry)
    (mname nsname : List UInt8) : heap.Named mname nsname a ↔ c.Names mname nsname := by
  rw [Named, he]
  rfl

/-- Over nodes with the entries of calls that give short names, `find` returns the first that has
the names. -/
theorem Holds.find_calls {heap : ImportHeap} {log : List ListAddr} {calls : List AddFunc}
    (h : heap.Holds log)
    (hcalls : ∀ c ∈ calls, (cString c.mname).length < 2 ^ 32 ∧ (cString c.nsname).length < 2 ^ 32)
    (hlog : ∀ a ∈ log, ∃ c ∈ calls, heap.func a = c.entry) {mname nsname : List UInt8}
    (hm : mname.length < 2 ^ 32) (hn : nsname.length < 2 ^ 32) :
    heap.fwImportFuncWrapFind mname nsname =
      .ok (log.find? fun a => heap.Named mname nsname a) := by
  refine h.find (fun a ha => ?_) hm hn
  obtain ⟨c, hc, he⟩ := hlog a ha
  rw [Short, he]
  exact hcalls c hc

/-- The registry is a map in which the latest entry wins: `find` returns the entry of the last call
of `add_func` with these two names, and `NULL` if and only if there was none. The calls are any
number of them, in any order, with names shorter than `2 ^ 32` bytes. -/
theorem registry_latest (calls : List AddFunc) (mname nsname : List UInt8)
    (hcalls : ∀ c ∈ calls, (cString c.mname).length < 2 ^ 32 ∧ (cString c.nsname).length < 2 ^ 32)
    (hm : mname.length < 2 ^ 32) (hn : nsname.length < 2 ^ 32) :
    (∀ pre c post, calls = pre ++ c :: post → c.Names mname nsname →
      (∀ c' ∈ post, ¬ c'.Names mname nsname) →
        (registered calls).fwImportFuncWrapFind mname nsname =
            .ok (some ((registered pre).fwImportsFuncNew c).1) ∧
          (registered calls).func ((registered pre).fwImportsFuncNew c).1 = c.entry) ∧
    ((registered calls).fwImportFuncWrapFind mname nsname = .ok none ↔
      ∀ c ∈ calls, ¬ c.Names mname nsname) := by
  refine ⟨?_, ?_⟩
  · rintro pre c post rfl hc hpost
    obtain ⟨log₁, h₁, hlog₁, -⟩ := exists_holds_registered pre
    obtain ⟨log₂, h, hlog₂, -, hsame⟩ := (h₁.new c).run post
    rw [← registered_append] at h hlog₂ hsame
    obtain ⟨hfirst, hsame⟩ := List.forall_mem_cons.mp hsame
    have hentry := hfirst.trans (func_new_self _ c)
    refine ⟨?_, hentry⟩
    rw [h.find_calls hcalls ?_ hm hn, List.find?_append, List.find?_eq_none.mpr,
      List.find?_cons_of_pos]
    · rfl
    · exact decide_eq_true ((named_iff hentry ..).mpr hc)
    · intro a ha
      obtain ⟨c', hc', he⟩ := hlog₂ a ha
      rw [decide_eq_true_iff, named_iff he]
      exact hpost c' hc'
    · intro a ha
      rcases List.mem_append.mp ha with ha | ha
      · obtain ⟨c', hc', he⟩ := hlog₂ a ha
        exact ⟨c', List.mem_append_right _ (List.mem_cons_of_mem _ hc'), he⟩
      · rcases List.mem_cons.mp ha with rfl | ha
        · exact ⟨c, List.mem_append_right _ List.mem_cons_self, hentry⟩
        · obtain ⟨c', hc', he⟩ := hlog₁ a ha
          exact ⟨c', List.mem_append_left _ hc', ((hsame a ha).trans (h₁.func_new c ha)).trans he⟩
  · obtain ⟨log, h, hlog, hcalls'⟩ := exists_holds_registered calls
    rw [h.find_calls hcalls hlog hm hn, Except.ok.injEq, List.find?_eq_none]
    simp only [decide_eq_true_iff]
    refine ⟨?_, ?_⟩
    · intro hnone c hc
      obtain ⟨a, ha, he⟩ := hcalls' c hc
      exact fun hc' => hnone a ha ((named_iff he ..).mpr hc')
    · intro hnone a ha
      obtain ⟨c, hc, he⟩ := hlog a ha
      rw [named_iff he]
      exact hnone c hc

/-- A call, and a later one with the same names. -/
def twice : List AddFunc := [⟨[0x61], [], some 1, 0, 0⟩, ⟨[0x61, 0], [], some 2, 0, 0⟩]

/-- The entry of the later call is found, by a name of one byte and an empty one. -/
theorem registered_twice : (registered twice).fwImportFuncWrapFind [0x61] [] =
      .ok (some ((registered (twice.take 1)).fwImportsFuncNew ⟨[0x61, 0], [], some 2, 0, 0⟩).1) ∧
    (registered twice).func
      ((registered (twice.take 1)).fwImportsFuncNew ⟨[0x61, 0], [], some 2, 0, 0⟩).1 =
        ⟨⟨[0x61], [], some 2⟩, 0, 0⟩ :=
  (registry_latest twice [0x61] [] (by decide) (by decide) (by decide)).1 (twice.take 1)
    ⟨[0x61, 0], [], some 2, 0, 0⟩ [] rfl ⟨rfl, rfl⟩ (by simp)

end ImportHeap

/-! ## The buckets

The registry as compilation uses it, without pointers: for each hash a list of entries. -/

/-- `fw_import_func_wrap_insert`, on the entries of the lists. -/
def FwImportFuncWrap.insert (funcs : FwImportFuncWrap) (func : FwImportFunc) : FwImportFuncWrap :=
  let hash := fwImportHash func.mname func.nsname
  Function.update funcs hash (func :: funcs hash)

/-- The buckets after some calls of `add_func`, the latest in front. -/
def fwImportFuncs (calls : List AddFunc) : FwImportFuncWrap :=
  calls.foldl (fun funcs c => funcs.insert c.entry.toFwImportFunc) fun _ => []

namespace ImportHeap

/-- The lists of a registry hold the entries of the buckets. -/
def Represents (heap : ImportHeap) (log : List ListAddr) (funcs : FwImportFuncWrap) : Prop :=
  ∀ i < fwMaxImportHash, funcs i = (heap.bucket log i).map fun a => (heap.func a).toFwImportFunc

theorem Represents.new {heap : ImportHeap} {log : List ListAddr} {funcs : FwImportFuncWrap}
    (h : heap.Represents log funcs) (hlog : heap.Holds log) (c : AddFunc) :
    (heap.fwImportsFuncNew c).2.Represents (.node heap.fresh :: log)
      (funcs.insert c.entry.toFwImportFunc) := by
  intro i hi
  have hmap : (heap.bucket log i).map (fun a => (heap.func a).toFwImportFunc) =
      (heap.bucket log i).map fun a =>
        ((heap.fwImportsFuncNew c).2.func a).toFwImportFunc :=
    List.map_congr_left fun a ha => by rw [hlog.func_new c (List.mem_filter.mp ha).1]
  rw [hlog.bucket_new, FwImportFuncWrap.insert]
  by_cases hi' : fwImportHash (cString c.mname) (cString c.nsname) = i
  · subst hi'
    rw [if_pos rfl, List.map_cons, func_new_self, ← hmap, ← h _ hi]
    exact Function.update_self ..
  · rw [if_neg hi', ← hmap, ← h i hi]
    exact Function.update_of_ne (Ne.symm hi') _ _

/-- The registry holds the buckets, after whatever calls. -/
theorem represents_registered (calls : List AddFunc) :
    ∃ log, (registered calls).Holds log ∧
      (registered calls).Represents log (fwImportFuncs calls) := by
  have h : ∀ (calls : List AddFunc) (heap : ImportHeap) (log : List ListAddr)
      (funcs : FwImportFuncWrap), heap.Holds log → heap.Represents log funcs →
        ∃ log', (calls.foldl (fun heap c => (heap.fwImportsFuncNew c).2) heap).Holds log' ∧
          (calls.foldl (fun heap c => (heap.fwImportsFuncNew c).2) heap).Represents log'
            (calls.foldl (fun funcs c => funcs.insert c.entry.toFwImportFunc) funcs) := by
    intro calls
    induction calls with
    | nil => exact fun _ log _ hlog h => ⟨log, hlog, h⟩
    | cons c calls ih => exact fun _ _ _ hlog h => ih _ _ _ (hlog.new c) (h.new hlog c)
  exact h calls _ [] _ holds_new fun _ _ => rfl

/-- A search of the lists is a search of the buckets, and finds the same entry. -/
theorem find_registered (calls : List AddFunc) (mname nsname : List UInt8) :
    ∃ r, (registered calls).fwImportFuncWrapFind mname nsname = .ok r ∧
      FastWasm.fwImportFuncWrapFind (fwImportFuncs calls) mname nsname =
        r.map fun a => ((registered calls).func a).toFwImportFunc := by
  obtain ⟨log, hlog, h⟩ := represents_registered calls
  refine ⟨_, hlog.find_bucket mname nsname, ?_⟩
  rw [FastWasm.fwImportFuncWrapFind, h _ (hash_lt mname nsname), List.find?_map]
  rfl

end ImportHeap

end FastWasm
