import FastWasm.Sections

/-!
# Storing the types of locals (`fw_module_section_func`)

The second pass over the local declarations of a code entry, as the loops that write `local_type`
byte by byte. The array has as many bytes as the sum of the groups modulo `2 ^ 32`, so that the
loops stay inside it exactly when the sum is below `2 ^ 32`; where it is not, the handler writes
past the end and rejects nothing (`localDecls_sound_iff`).

The loops are written out here with a log of what is allocated and written, and they read what the
handler reads. A write past the end is an event too, and the last one, since what it does to the
heap is not modelled. The property has two ways of holding, to store the locals within the array or
to reject the entry; an entry with too many locals gets neither, whatever comes behind it, because
its write past the end is on the way.
-/

namespace FastWasm

open Logged (Fallible Outcome)
open Logged.Fallible

/-! ## The loops

They are written with the indices that they use, and the array is what has been written of it so
far. -/

/-- What reading a code entry does: what its readers do, an allocation, and writes. -/
inductive CodeEvent where
  /-- an event of the loader -/
  | load (event : LoadEvent)
  /-- `local_type` is allocated -/
  | malloc (size : UInt32)
  /-- the byte of `local_type` at an index is written -/
  | write (idx : ℕ)
  deriving DecidableEq, Repr

/-- A reader that logs what it writes, over the cursor. -/
abbrev Storing (α : Type) : Type := Fallible CodeEvent Halt FwStr α

/-- The loop over `k`, for `count` more rounds: `local_type` has `size` bytes, of which those of
`localType` are written, so that `local_cnt_idx` is their number. -/
def storeLocals (size : ℕ) (valuetype : UInt8) : ℕ → List UInt8 → Storing (List UInt8)
  | 0, localType => pure localType
  | count + 1, localType => do
    emit (.write localType.length)
    if localType.length < size then storeLocals size valuetype count (localType ++ [valuetype])
    else halt (.fault .badPtr)

/-- The second loop over `j`, for `localCnt` more rounds. -/
def storeGroups (mem : Mem) (size : ℕ) : ℕ → List UInt8 → Storing (List UInt8)
  | 0, localType => pure localType
  | localCnt + 1, localType => do
    let group ← mapLog .load (fwLocalGroup mem)
    let localType ← storeLocals size group.2 group.1.toNat localType
    storeGroups mem size localCnt localType

/-- `local_type` for `totalCnt` locals: it is allocated, and the groups are read again from
`codeStart` on. -/
def storeLocalType (mem : Mem) (totalCnt localCnt : UInt32) (codeStart : ℕ) :
    Storing (List UInt8) := do
  emit (.malloc totalCnt)
  modify fun str => { str with pos := codeStart }
  storeGroups mem totalCnt.toNat localCnt.toNat []

/-- One entry of the code section, with the loops that store the types of its locals. -/
def storingCodeEntry (mem : Mem) : Storing (List UInt8 × UInt32 × FwStr) := do
  let codesize ← mapLog .load (fwStrLebGetu32 mem)
  let code ← get
  let codeEnd := code.pos + codesize.toNat
  let localCnt ← mapLog .load (fwStrLebGetu32 mem)
  let codeStart ← get
  let groups ← mapLog .load (collect (fwLocalGroup mem) localCnt.toNat)
  let totalCnt := groups.foldl (fun total g => total + g.1) 0
  let body ← get
  let localType ← storeLocalType mem totalCnt localCnt codeStart.pos
  modify fun str => { str with pos := codeEnd }
  pure (localType, totalCnt, ⟨body.pos, codeEnd⟩)

/-- The index that an event writes. -/
def CodeEvent.written : CodeEvent → Option ℕ
  | .write idx => some idx
  | _ => none

/-- The size that an event allocates. -/
def CodeEvent.allocated : CodeEvent → Option UInt32
  | .malloc size => some size
  | _ => none

variable {mem : Mem} {str str' : FwStr} {size : ℕ} {localType : List UInt8}
  {groups : List (UInt32 × UInt8)}

/-! ## What the loops write

The indices count up from the length of what is there, so the writes are a range. They stop at
the end of the array or at the end of the groups, whichever comes first. -/

section Loops

variable {valuetype : UInt8} {count : ℕ}

/-- One write, to a byte of the array, and the writes behind it. -/
theorem storeLocals_succ (hlt : localType.length < size) (count : ℕ) :
    storeLocals size valuetype (count + 1) localType str =
      let rest := storeLocals size valuetype count (localType ++ [valuetype]) str
      ⟨.write localType.length :: rest.log, rest.res⟩ := by
  have hemit : Runs (emit (.write localType.length) : Storing PUnit) str ⟨⟩ str := rfl
  rw [storeLocals, bind_of_runs hemit, if_pos hlt]
  rfl

/-- With room for all bytes they are all written, one behind the other. -/
theorem storeLocals_fits (h : localType.length + count ≤ size) :
    storeLocals size valuetype count localType str =
      ⟨(List.range' localType.length count).map .write,
        .ok (some (localType ++ List.replicate count valuetype), str)⟩ := by
  induction count generalizing localType with
  | zero =>
    rw [List.replicate_zero, List.append_nil]
    rfl
  | succ count ih =>
    have hlen : (localType ++ [valuetype]).length = localType.length + 1 := List.length_append
    rw [storeLocals_succ (by omega), ih (by omega), hlen, List.append_assoc]
    rfl

/-- Without: the last write is the one behind the end. -/
theorem storeLocals_overruns (hle : localType.length ≤ size)
    (h : size < localType.length + count) :
    storeLocals size valuetype count localType str =
      ⟨(List.range' localType.length (size + 1 - localType.length)).map .write,
        .error (.fault .badPtr)⟩ := by
  induction count generalizing localType with
  | zero => omega
  | succ count ih =>
    have hlen : (localType ++ [valuetype]).length = localType.length + 1 := List.length_append
    rcases Nat.lt_or_eq_of_le hle with hlt | rfl
    · have hsub : size + 1 - localType.length = size + 1 - (localType.length + 1) + 1 := by omega
      rw [storeLocals_succ hlt, ih (by omega) (by omega), hlen, hsub]
      rfl
    · have hsub : localType.length + 1 - localType.length = 1 := by omega
      rw [storeLocals, hsub, if_neg (lt_irrefl _)]
      rfl

end Loops

/-- The indices that a computation writes, in order. -/
def writesOf {α : Type} (m : Storing α) (str : FwStr) : List ℕ :=
  (m str).log.filterMap CodeEvent.written

/-- The sizes of the arrays that a computation allocates, in order. -/
def mallocsOf {α : Type} (m : Storing α) (str : FwStr) : List UInt32 :=
  (m str).log.filterMap CodeEvent.allocated

/-- What a computation does: the indices it writes, the arrays it allocates, and how it ends. -/
structure Does {α : Type} (m : Storing α) (str : FwStr) (writes : List ℕ) (mallocs : List UInt32)
    (res : Except Halt (Option α × FwStr)) : Prop where
  /-- the indices it writes, in order -/
  writes : writesOf m str = writes
  /-- the sizes of the arrays it allocates, in order -/
  mallocs : mallocsOf m str = mallocs
  /-- how it ends -/
  res : (m str).res = res

namespace Does

variable {α β : Type} {m : Storing α} {f : α → Storing β} {a : α} {ws ws' : List ℕ}
  {sizes sizes' : List UInt32} {res : Except Halt (Option β × FwStr)}

theorem bind (h : Does m str ws sizes (.ok (some a, str'))) (h' : Does (f a) str' ws' sizes' res) :
    Does (m >>= f) str (ws ++ ws') (sizes ++ sizes') res := by
  have hm : Runs m str a str' := h.res
  refine ⟨?_, ?_, (bind_res_of_runs hm).trans h'.res⟩
  · rw [writesOf, bind_of_runs hm, List.filterMap_append, ← h.writes, ← h'.writes]
    rfl
  · rw [mallocsOf, bind_of_runs hm, List.filterMap_append, ← h.mallocs, ← h'.mallocs]
    rfl

theorem bind_halt {e : Halt} (h : Does m str ws sizes (.error e)) :
    Does (m >>= f) str ws sizes (.error e) := by
  have hm : Halts m str e := h.res
  refine ⟨?_, ?_, bind_res_of_halts hm⟩
  · rw [writesOf, bind_of_halts hm, ← h.writes]
    rfl
  · rw [mallocsOf, bind_of_halts hm, ← h.mallocs]
    rfl

/-- Reading neither writes nor allocates, whatever it reads. -/
theorem load {m : Parse α} (h : Runs m str a str') :
    Does (mapLog .load m) str [] [] (.ok (some a, str')) := by
  have hload {γ : Type} (g : CodeEvent → Option γ) (hg : ∀ e, g (.load e) = none)
      (l : List LoadEvent) : (l.map CodeEvent.load).filterMap g = [] := by
    rw [List.filterMap_map, List.filterMap_eq_nil_iff]
    exact fun e _ => hg e
  exact ⟨hload _ (fun _ => rfl) _, hload _ (fun _ => rfl) _, h⟩

/-- From an outcome with nothing but writes. -/
theorem of_writes {res : Except Halt (Option α × FwStr)} (h : m str = ⟨ws.map .write, res⟩) :
    Does m str ws [] res := by
  refine ⟨?_, ?_, ?_⟩
  · rw [writesOf, h, List.filterMap_map]
    exact List.filterMap_some
  · rw [mallocsOf, h, List.filterMap_map, List.filterMap_eq_nil_iff]
    exact fun _ _ => rfl
  · rw [h]

/-- A last step that moves the cursor. -/
theorem modify_pure (g : FwStr → FwStr) (b : β) :
    Does (do modify g; pure b) str [] [] (.ok (some b, g str)) :=
  ⟨rfl, rfl, rfl⟩

end Does

theorem sumLocals_cons (group : UInt32 × UInt8) (groups : List (UInt32 × UInt8)) :
    sumLocals (group :: groups) = group.1.toNat + sumLocals groups :=
  List.sum_cons

/-- The array behind a group is longer by the count of the group. -/
theorem length_group (localType : List UInt8) (group : UInt32 × UInt8) :
    (localType ++ List.replicate group.1.toNat group.2).length =
      localType.length + group.1.toNat := by
  rw [List.length_append, List.length_replicate]

/-- The second pass over groups that fit writes one byte for each local. -/
theorem storeGroups_fits (h : Reads (fwLocalGroup mem) str groups str')
    (hle : localType.length + sumLocals groups ≤ size) :
    Does (storeGroups mem size groups.length localType) str
      (List.range' localType.length (sumLocals groups)) []
      (.ok (some (localType ++ expandLocals groups), str')) := by
  induction h generalizing localType with
  | nil s =>
    rw [expandLocals, List.flatMap_nil, List.append_nil]
    exact .of_writes rfl
  | @cons s s₁ s' group groups head tail ih =>
    have hsum := sumLocals_cons group groups
    have hlen := length_group localType group
    have hfit : (localType ++ List.replicate group.1.toNat group.2).length + sumLocals groups ≤
        size := by omega
    have hrest := ih hfit
    rw [hlen, List.append_assoc] at hrest
    rw [hsum, ← List.range'_append_1]
    exact (Does.load head).bind ((Does.of_writes (storeLocals_fits (by omega))).bind hrest)

/-- The second pass over groups that do not fit writes up to the byte behind the array. -/
theorem storeGroups_overruns (h : Reads (fwLocalGroup mem) str groups str')
    (hle : localType.length ≤ size) (hlt : size < localType.length + sumLocals groups) :
    Does (storeGroups mem size groups.length localType) str
      (List.range' localType.length (size + 1 - localType.length)) []
      (.error (.fault .badPtr)) := by
  induction h generalizing localType with
  | nil s => exact absurd hlt (Nat.not_lt.mpr hle)
  | @cons s s₁ s' group groups head tail ih =>
    have hsum := sumLocals_cons group groups
    have hlen := length_group localType group
    rcases Nat.lt_or_ge size (localType.length + group.1.toNat) with hgt | hge
    · exact (Does.load head).bind (Does.of_writes (storeLocals_overruns hle hgt)).bind_halt
    · have hroom : (localType ++ List.replicate group.1.toNat group.2).length ≤ size := by omega
      have hrest := ih hroom (by omega)
      have hsplit : size + 1 - localType.length =
          group.1.toNat + (size + 1 - (localType.length + group.1.toNat)) := by omega
      rw [hlen] at hrest
      rw [hsplit, ← List.range'_append_1]
      exact (Does.load head).bind ((Does.of_writes (storeLocals_fits hge)).bind hrest)

/-! ## Code entries

The groups are counted first, modulo 2^32, and the array has as many bytes. The same groups are then
read a second time. -/

/-- The code entry at the cursor declares these groups of locals: a size, the number of the groups,
and the groups. -/
def Declares (mem : Mem) (code : FwStr) (groups : List (UInt32 × UInt8)) : Prop :=
  ∃ size c₁ n c₂ c₃, Runs (fwStrLebGetu32 mem) code size c₁ ∧
    Runs (fwStrLebGetu32 mem) c₁ n c₂ ∧ groups.length = n.toNat ∧
    Reads (fwLocalGroup mem) c₂ groups c₃

section Entry

variable {c₂ c₃ : FwStr} {total localCnt : UInt32}

/-- The cursor behind the groups, put back before them. -/
theorem seek_groups (h : Reads (fwLocalGroup mem) c₂ groups c₃) :
    (⟨c₂.pos, c₃.last⟩ : FwStr) = c₂ := by
  have hlast : c₃.last = c₂.last :=
    (forward_localGroup.collect groups.length (runs_collect.mpr ⟨rfl, h⟩)).2
  rw [hlast]

/-- The array is allocated and the cursor put back before the groups. -/
theorem does_storeLocalType {ws : List ℕ} {res : Except Halt (Option (List UInt8) × FwStr)}
    (h : Reads (fwLocalGroup mem) c₂ groups c₃)
    (hstore : Does (storeGroups mem total.toNat localCnt.toNat []) c₂ ws [] res) :
    Does (storeLocalType mem total localCnt c₂.pos) c₃ ws [total] res := by
  have hmalloc : Does (emit (.malloc total) : Storing PUnit) c₃ [] [total] (.ok (some ⟨⟩, c₃)) :=
    ⟨rfl, rfl, rfl⟩
  have hseek : Does (modify fun str => { str with pos := c₂.pos } : Storing PUnit) c₃ [] []
      (.ok (some ⟨⟩, ⟨c₂.pos, c₃.last⟩)) := ⟨rfl, rfl, rfl⟩
  rw [seek_groups h] at hseek
  exact hmalloc.bind (hseek.bind hstore)

/-- The array holds the types of all locals, and each byte of it is written. -/
theorem storeLocalType_fits (h : Reads (fwLocalGroup mem) c₂ groups c₃)
    (hlen : groups.length = localCnt.toNat) (hle : sumLocals groups ≤ total.toNat) :
    Does (storeLocalType mem total localCnt c₂.pos) c₃ (List.range (sumLocals groups)) [total]
      (.ok (some (expandLocals groups), c₃)) := by
  have hfit : ([] : List UInt8).length + sumLocals groups ≤ total.toNat :=
    (Nat.zero_add _).trans_le hle
  have hstore := storeGroups_fits h hfit
  rw [hlen] at hstore
  rw [List.range_eq_range']
  exact does_storeLocalType h hstore

/-- Or its end is overwritten, by the first local that there is no byte for. -/
theorem storeLocalType_overruns (h : Reads (fwLocalGroup mem) c₂ groups c₃)
    (hlen : groups.length = localCnt.toNat) (hlt : total.toNat < sumLocals groups) :
    Does (storeLocalType mem total localCnt c₂.pos) c₃ (List.range (total.toNat + 1)) [total]
      (.error (.fault .badPtr)) := by
  have hover : total.toNat < ([] : List UInt8).length + sumLocals groups :=
    hlt.trans_eq (Nat.zero_add _).symm
  have hstore := storeGroups_overruns h (Nat.zero_le _) hover
  rw [hlen] at hstore
  rw [List.range_eq_range']
  exact does_storeLocalType h hstore

end Entry

/-- With the loops the entry is read as without, so what they do is what the handler does. -/
theorem storingCodeEntry_res (mem : Mem) (code : FwStr) :
    (storingCodeEntry mem code).res = (fwCodeEntry mem code).res := by
  rw [storingCodeEntry, fwCodeEntry]
  refine mapLog_bind_res fun codesize c₁ _ => ?_
  rw [get_bind_res, get_bind_res]
  refine mapLog_bind_res fun localCnt c₂ _ => ?_
  rw [get_bind_res, get_bind_res]
  refine mapLog_bind_res fun groups c₃ hgroups => ?_
  rw [get_bind_res, get_bind_res]
  obtain ⟨hlen, hreads⟩ := runs_collect.mp hgroups
  have hseek : Runs (Parse.seek c₂.pos) c₃ ⟨⟩ c₂ := runs_seek.mpr (seek_groups hreads).symm
  rw [bind_res_of_runs hseek, bind_res_of_runs hgroups]
  rcases Nat.lt_or_ge (groups.foldl (fun total (g : UInt32 × UInt8) => total + g.1) 0).toNat
    (sumLocals groups) with hlt | hge
  · rw [bind_res_of_halts (storeLocalType_overruns hreads hlen hlt).res,
      if_pos (by rwa [length_expandLocals])]
    rfl
  · rw [bind_res_of_runs (storeLocalType_fits hreads hlen hge).res,
      if_neg (by rw [length_expandLocals]; exact Nat.not_lt.mpr hge)]
    rfl

section Declared

variable {code : FwStr}

/-- Before the array is allocated, an entry is only read. -/
theorem does_codeEntry {size n : UInt32} {c₁ c₂ c₃ : FwStr} {ws : List ℕ}
    {res : Except Halt (Option (List UInt8 × UInt32 × FwStr) × FwStr)}
    (hsize : Runs (fwStrLebGetu32 mem) code size c₁) (hn : Runs (fwStrLebGetu32 mem) c₁ n c₂)
    (hlen : groups.length = n.toNat) (hreads : Reads (fwLocalGroup mem) c₂ groups c₃)
    (hrest : Does (do
      let localType ← storeLocalType mem (UInt32.ofNat (sumLocals groups)) n c₂.pos
      modify fun str => { str with pos := c₁.pos + size.toNat }
      pure (localType, UInt32.ofNat (sumLocals groups), (⟨c₃.pos, c₁.pos + size.toNat⟩ : FwStr)))
      c₃ ws [UInt32.ofNat (sumLocals groups)] res) :
    Does (storingCodeEntry mem) code ws [UInt32.ofNat (sumLocals groups)] res := by
  have hget (d : FwStr) : Does (get : Storing FwStr) d [] [] (.ok (some d, d)) := ⟨rfl, rfl, rfl⟩
  have hgroups := Does.load (runs_collect.mpr ⟨hlen, hreads⟩)
  have htotal : groups.foldl (fun total (g : UInt32 × UInt8) => total + g.1) 0 =
      UInt32.ofNat (sumLocals groups) := by
    apply UInt32.toNat_inj.mp
    rw [toNat_total, UInt32.toNat_ofNat']
  rw [← htotal] at hrest ⊢
  exact (Does.load hsize).bind ((hget c₁).bind ((Does.load hn).bind ((hget c₂).bind (hgroups.bind
    ((hget c₃).bind hrest)))))

/-- An entry with a number of locals of 32 bits is accepted. -/
theorem codeEntry_fits (h : Declares mem code groups) (hlt : sumLocals groups < 2 ^ 32) :
    ∃ body c', Does (storingCodeEntry mem) code (List.range (sumLocals groups))
      [UInt32.ofNat (sumLocals groups)]
      (.ok (some (expandLocals groups, UInt32.ofNat (sumLocals groups), body), c')) := by
  obtain ⟨size, c₁, n, c₂, c₃, hsize, hn, hlen, hreads⟩ := h
  have htotal : (UInt32.ofNat (sumLocals groups)).toNat = sumLocals groups := Nat.mod_eq_of_lt hlt
  have hstore := storeLocalType_fits hreads hlen htotal.ge
  have hrest := hstore.bind (f := fun localType => do
    modify fun str => { str with pos := c₁.pos + size.toNat }
    pure (localType, UInt32.ofNat (sumLocals groups), (⟨c₃.pos, c₁.pos + size.toNat⟩ : FwStr)))
    (Does.modify_pure _ _)
  rw [List.append_nil, List.append_nil] at hrest
  exact ⟨_, _, does_codeEntry hsize hn hlen hreads hrest⟩

/-- With more of them the byte behind the array is written. -/
theorem codeEntry_overruns (h : Declares mem code groups) (hge : 2 ^ 32 ≤ sumLocals groups) :
    Does (storingCodeEntry mem) code (List.range (sumLocals groups % 2 ^ 32 + 1))
      [UInt32.ofNat (sumLocals groups)] (.error (.fault .badPtr)) := by
  obtain ⟨size, c₁, n, c₂, c₃, hsize, hn, hlen, hreads⟩ := h
  have htotal : (UInt32.ofNat (sumLocals groups)).toNat = sumLocals groups % 2 ^ 32 :=
    UInt32.toNat_ofNat'
  have hmod : sumLocals groups % 2 ^ 32 < 2 ^ 32 := Nat.mod_lt _ (by decide)
  have hstore := storeLocalType_overruns hreads hlen (htotal.trans_lt (hmod.trans_le hge))
  rw [htotal] at hstore
  exact does_codeEntry hsize hn hlen hreads hstore.bind_halt

end Declared

/-! ## The handler

It reads one entry after the other and halts where one of them does. -/

variable {s s' : LoadState} {i : ℕ} {code : FwStr}

/-- The handler called in `s` comes to the code entry number `i` at `code`: the entries before it
were read, and there is one more to read. -/
def EntryReached (mem : Mem) (s : LoadState) (i : ℕ) (code : FwStr) : Prop :=
  ∃ n d c types idxs d' entries, Runs (fwStrLebGetu32 mem) s.sec.data n d ∧
    Runs (fwStrLebGetu32 mem) s.module.codeRef n c ∧ i < n.toNat ∧ s.module.type = some types ∧
    Reads (fwStrLebGetu32 mem) d idxs d' ∧ idxs.length = i + 1 ∧
    (∀ idx ∈ idxs, idx ≤ s.module.typeCnt) ∧ Reads (fwCodeEntry mem) c entries code ∧
    entries.length = i

/-- When the handler accepts the section, it has counted the locals of the code entry number `i` and
stored their types inside the array; an entry with too many of them it rejects. -/
structure EntrySound (mem : Mem) (s : LoadState) (i : ℕ) (code : FwStr)
    (groups : List (UInt32 × UInt8)) : Prop where
  /-- when it is accepted, the locals are counted, and the types of that many are written, all of
  them into the array -/
  accepted : ∀ s', Runs (fwModuleSectionFunc mem) s ⟨⟩ s' →
    ∃ func, s'.module.funcs[i]? = some func ∧ func.localCnt.toNat = sumLocals groups ∧
      mallocsOf (storingCodeEntry mem) code = [func.localCnt] ∧
      writesOf (storingCodeEntry mem) code = List.range (sumLocals groups) ∧
      ∀ idx ∈ writesOf (storingCodeEntry mem) code, idx < func.localCnt.toNat
  /-- it is rejected when there are too many locals -/
  rejected : 2 ^ 32 ≤ sumLocals groups → ∃ s', (fwModuleSectionFunc mem s).res = .ok (none, s')

/-- Where a code entry halts, the handler does, behind whatever it has read before. -/
theorem halts_sectionFunc {h : Halt} (hreach : EntryReached mem s i code)
    (hhalts : Halts (fwCodeEntry mem) code h) : Halts (fwModuleSectionFunc mem) s h := by
  obtain ⟨n, d, c, types, idxs, d', entries, hn, hc, hi, htypes, hidxs, hlen, hall, hentries,
    hlen'⟩ := hreach
  have hn0 : n ≠ 0 := by
    rintro rfl
    exact absurd hi (Nat.not_lt_zero i)
  obtain ⟨idxs, idx, rfl⟩ : ∃ idxs' idx, idxs = idxs' ++ [idx] :=
    (List.eq_nil_or_concat' idxs).resolve_left (by rintro rfl; simp at hlen)
  have hlen : idxs.length = i := by simpa using hlen
  obtain ⟨hall, hidx⟩ := List.forall_mem_append.mp hall
  obtain ⟨d₁, hidxs, hlast⟩ := reads_append.mp hidxs
  obtain ⟨d₂, hlast, -⟩ := reads_cons.mp hlast
  -- the rounds before, and the type of the function of the entry
  have hrounds : Reads (fwFuncEntry mem) ⟨{ s.module with codeRef := c, funcCnt := n, funcs := [] },
      ⟨s.sec.type, d, true⟩⟩ (List.replicate i ⟨⟩) _ :=
    (reads_funcEntry (by exact htypes)).mpr ⟨idxs, d₁, hidxs,
      hlen.trans List.length_replicate.symm, hall, entries, code, hentries,
      hlen'.trans List.length_replicate.symm, rfl⟩
  have htype : Runs (fwFuncType mem) ⟨{ s.module with
      codeRef := code, funcCnt := n, funcs := [] ++ funcsOf types idxs entries },
      ⟨s.sec.type, d₁, true⟩⟩ types[idx.toNat]? _ :=
    runs_funcType.mpr ⟨idx, d₂, hlast, hidx idx (List.mem_singleton_self idx), types, htypes, rfl,
      rfl⟩
  have hround : Halts (fwFuncEntry mem) _ h := halts_bind.mpr (.inr ⟨_, _, htype,
    halts_bind.mpr (.inl (halts_zoom.mpr hhalts))⟩)
  have hloop : Halts (collect (fwFuncEntry mem) n.toNat) _ h :=
    halts_collect.mpr ⟨_, _, List.length_replicate.trans_lt hi, hrounds, hround⟩
  have hcnt : Runs (Load.onData (fwStrLebGetu32 mem)) s n _ := runs_onData.mpr ⟨d, hn, rfl⟩
  have hcode : Runs (Load.onCode (fwStrLebGetu32 mem)) ⟨s.module, { s.sec with data := d }⟩ n _ :=
    runs_onCode.mpr ⟨c, hc, rfl⟩
  have hcheck : Runs (check (n = n) : Load PUnit) ⟨{ s.module with codeRef := c },
      { s.sec with data := d }⟩ ⟨⟩ _ := runs_check.mpr ⟨rfl, rfl⟩
  refine halts_bind.mpr (.inr ⟨n, _, hcnt, halts_bind.mpr (.inr ⟨n, _, hcode,
    halts_bind.mpr (.inr ⟨⟨⟩, _, hcheck, ?_⟩)⟩)⟩)
  simp only [if_pos hn0]
  exact halts_bind.mpr (.inr ⟨⟨⟩, _, runs_update.mpr rfl, halts_bind.mpr (.inr ⟨⟨⟩, _,
    runs_setFree.mpr rfl, halts_bind.mpr (.inl hloop)⟩)⟩)

/-- Where the handler returns `FW_OK`, a code entry that it came to is that of its function. It has
read as many entries as there are functions, and those before this one are the first of them. -/
theorem funcs_of_runs {e : List UInt8 × UInt32 × FwStr} {c' : FwStr}
    (hreach : EntryReached mem s i code) (he : Runs (fwCodeEntry mem) code e c')
    (hrun : Runs (fwModuleSectionFunc mem) s ⟨⟩ s') :
    ∃ t, s'.module.funcs[i]? = some (.ofEntry t e) := by
  obtain ⟨n, d, c, types, idxs, d', entries, hn, hc, hi, -, -, -, -, hentries, rfl⟩ := hreach
  obtain ⟨n', d₁, c₁, hn', hc', hcase⟩ := runs_sectionFunc.mp hrun
  obtain ⟨rfl, rfl⟩ := hn.unique hn'
  obtain ⟨-, rfl⟩ := hc.unique hc'
  rcases hcase with
    ⟨-, types', -, idxs', d₂, -, hidxs', -, entries', c₂, hentries', hlen', -, rfl⟩ | ⟨h0, -⟩
  · rw [← List.take_append_drop entries.length entries'] at hentries'
    obtain ⟨code', hbefore, hafter⟩ := reads_append.mp hentries'
    obtain ⟨-, rfl⟩ := hentries.unique hbefore (by rw [List.length_take]; omega)
    have hget : entries'.drop entries.length = entries'[entries.length] :: _ :=
      List.drop_eq_getElem_cons (by omega)
    rw [hget] at hafter
    obtain ⟨c₃, he', -⟩ := reads_cons.mp hafter
    obtain ⟨rfl, -⟩ := he.unique he'
    refine ⟨types'[(idxs'[entries.length]).toNat]?, ?_⟩
    rw [funcsOf, List.getElem?_eq_getElem (by rw [List.length_zipWith]; omega),
      List.getElem_zipWith]
  · rw [not_not.mp h0] at hi
    exact absurd hi (Nat.not_lt_zero _)

/-- An entry whose number of locals does not have 32 bits is not rejected. Its groups are read again
as they were counted, so the byte behind the smaller array is written before the entry is read to
its end. -/
theorem not_entrySound (hreach : EntryReached mem s i code) (hdecl : Declares mem code groups)
    (hge : 2 ^ 32 ≤ sumLocals groups) : ¬ EntrySound mem s i code groups := by
  intro h
  obtain ⟨s', hrejected⟩ := h.rejected hge
  have hhalts : Halts (fwCodeEntry mem) code (.fault .badPtr) :=
    (storingCodeEntry_res mem code).symm.trans (codeEntry_overruns hdecl hge).res
  have hhalts : (fwModuleSectionFunc mem s).res = .error _ := halts_sectionFunc hreach hhalts
  exact absurd (hhalts.symm.trans hrejected) (by simp)

/-- A code entry the handler comes to (`hreach`), with any groups of locals (`hdecl`), is counted
and stored, or rejected, if and only if the number of its locals has 32 bits. The groups may be any
number, with any counts. -/
theorem localDecls_sound_iff (hreach : EntryReached mem s i code)
    (hdecl : Declares mem code groups) :
    EntrySound mem s i code groups ↔ sumLocals groups < 2 ^ 32 := by
  refine ⟨?_, ?_⟩
  · intro h
    by_contra hge
    exact not_entrySound hreach hdecl (Nat.not_lt.mp hge) h
  · intro hlt
    refine ⟨fun s' hrun => ?_, fun hge => absurd hlt (Nat.not_lt.mpr hge)⟩
    have htotal : (UInt32.ofNat (sumLocals groups)).toNat = sumLocals groups :=
      Nat.mod_eq_of_lt hlt
    obtain ⟨body, c', hdoes⟩ := codeEntry_fits hdecl hlt
    have he : Runs (fwCodeEntry mem) code _ c' :=
      (storingCodeEntry_res mem code).symm.trans hdoes.res
    obtain ⟨t, ht⟩ := funcs_of_runs hreach he hrun
    refine ⟨_, ht, htotal, hdoes.mallocs, hdoes.writes, fun idx hidx => ?_⟩
    rw [hdoes.writes, List.mem_range] at hidx
    exact hidx.trans_eq htotal.symm

/-! ### Two entries -/

/-- The state in which the handler is called for one function, whose code section starts at 2. -/
def oneFuncState (last : ℕ) : LoadState :=
  ⟨{ LoadedModule.new [] ⟨2, last⟩ with typeCnt := 1, type := some [⟨0, 0, []⟩] },
    ⟨3, ⟨0, 2⟩, false⟩⟩

/-- A function with one local, whose type is written into an array of one byte. -/
theorem oneLocal_sound :
    EntrySound (memOf [1, 0, 1, 4, 1, 1, 0x7f, 0x0b]) (oneFuncState 8) 0 ⟨3, 8⟩ [(1, 0x7f)] := by
  have hreach : EntryReached (memOf [1, 0, 1, 4, 1, 1, 0x7f, 0x0b]) (oneFuncState 8) 0 ⟨3, 8⟩ :=
    ⟨1, ⟨1, 2⟩, ⟨3, 8⟩, [⟨0, 0, []⟩], [0], ⟨2, 2⟩, [], rfl, rfl, by decide, rfl,
      reads_cons.mpr ⟨⟨2, 2⟩, rfl, .nil _⟩, rfl, by simp, .nil _, rfl⟩
  have hdecl : Declares (memOf [1, 0, 1, 4, 1, 1, 0x7f, 0x0b]) ⟨3, 8⟩ [(1, 0x7f)] :=
    ⟨4, ⟨4, 8⟩, 1, ⟨5, 8⟩, ⟨7, 8⟩, rfl, rfl, rfl, reads_cons.mpr ⟨⟨7, 8⟩, rfl, .nil _⟩⟩
  exact (localDecls_sound_iff hreach hdecl).mpr (by decide)

/-- The memory of two groups of `2 ^ 32 - 1` and 2 locals. -/
def wrappedMem : Mem :=
  memOf [1, 0, 1, 10, 2, 0xff, 0xff, 0xff, 0xff, 0x0f, 0x7f, 2, 0x7f, 0x0b]

/-- The array has one byte, and a second one is written. -/
theorem wrappedLocals_not_sound :
    EntryReached wrappedMem (oneFuncState 14) 0 ⟨3, 14⟩ ∧
      Declares wrappedMem ⟨3, 14⟩ [(0xffffffff, 0x7f), (2, 0x7f)] ∧
      ¬ EntrySound wrappedMem (oneFuncState 14) 0 ⟨3, 14⟩ [(0xffffffff, 0x7f), (2, 0x7f)] := by
  have hreach : EntryReached wrappedMem (oneFuncState 14) 0 ⟨3, 14⟩ :=
    ⟨1, ⟨1, 2⟩, ⟨3, 14⟩, [⟨0, 0, []⟩], [0], ⟨2, 2⟩, [], rfl, rfl, by decide, rfl,
      reads_cons.mpr ⟨⟨2, 2⟩, rfl, .nil _⟩, rfl, by simp, .nil _, rfl⟩
  have hdecl : Declares wrappedMem ⟨3, 14⟩ [(0xffffffff, 0x7f), (2, 0x7f)] :=
    ⟨10, ⟨4, 14⟩, 2, ⟨5, 14⟩, ⟨13, 14⟩, rfl, rfl, rfl,
      reads_cons.mpr ⟨⟨11, 14⟩, rfl, reads_cons.mpr ⟨⟨13, 14⟩, rfl, .nil _⟩⟩⟩
  exact ⟨hreach, hdecl, not_entrySound hreach hdecl (by decide)⟩

end FastWasm
