import FastWasm.Logged
import Mathlib.Data.List.Nodup

/-!
# Blocks on a heap and their release

What a destructor does to the blocks that a data structure owns: it walks over the entries of an
array, frees what they point to, and frees the array. Over any type of addresses:

* `Cell` and `Block`, a pointer and an array of entries that hold pointers, and `Block.addrs`, the
  blocks that an array owns, itself among them.
* `Use`, what is done to a block, `freed`, the blocks that a log frees, and `Tidy`, that nothing is
  used behind its `free`.
* `free`, `entry`, `forEach` and `freeArray`, the programs. `Readable` says exactly when `freeArray`
  returns, `uses` is its log then, and `Spent` says that this log frees what the array owns.

The memory is not changed by a `free`; what it means that a block is gone is said of the log. So the
order of the uses is a matter of lists, and the logs of several destructors are put together by
appending them. Tidiness follows from two lists being without repetition, which is easier to show
than the absence of a use behind a `free`.
-/

namespace Ownership

open Logged (Outcome)

variable {α β η σ : Type}

/-! ## Pointers and arrays

An array is an address and its entries, and of an entry only the pointers matter. A pointer may be
to a block, `NULL`, or never set; the last of these is there because some entries are allocated and
not filled in. -/

/-- A pointer: to a block, `NULL`, or never set. -/
inductive Cell (α : Type) where
  /-- it was never written -/
  | indet
  /-- `NULL` -/
  | null
  /-- the address of a block -/
  | ptr (a : α)
  deriving DecidableEq, Repr

/-- The address, of a pointer to a block. `NULL` has none, and neither has a pointer that was never
set. -/
def Cell.target : Cell α → Option α
  | .indet => none
  | .null => none
  | .ptr a => some a

/-- An array: its address, and the pointers that each of its entries holds. -/
structure Block (α : Type) where
  /-- the address -/
  addr : α
  /-- the pointers of each entry -/
  entries : List (List (Cell α))

/-- The blocks that entries point to, entry by entry. -/
def targets (entries : List (List (Cell α))) : List α := entries.flatten.filterMap Cell.target

/-- The blocks that an array owns: itself, and what its entries point to. -/
def Block.addrs (b : Block α) : List α := b.addr :: targets b.entries

/-- What a pointer to an array owns, which is nothing when it is `NULL`. -/
def owned : Option (Block α) → List α
  | none => []
  | some b => b.addrs

/-- The pointer to an array. -/
def cellOf : Option (Block α) → Cell α
  | none => .null
  | some b => .ptr b.addr

theorem target_eq_some {c : Cell α} {a : α} : c.target = some a ↔ c = .ptr a := by
  cases c <;> simp [Cell.target]

theorem mem_targets {entries : List (List (Cell α))} {a : α} :
    a ∈ targets entries ↔ ∃ cells ∈ entries, .ptr a ∈ cells := by
  simp [targets, target_eq_some]

@[simp] theorem targets_append (entries entries' : List (List (Cell α))) :
    targets (entries ++ entries') = targets entries ++ targets entries' := by
  simp [targets]

/-! ## What is done to blocks

A log is a list of uses. What is freed, and whether something is used behind that, are functions of
the list. -/

/-- One use of a block: entry `j` of it is read, or it is freed. -/
inductive Use (α : Type) where
  /-- entry `j` is read -/
  | touch (a : α) (j : ℕ)
  /-- the block is freed -/
  | free (a : α)
  deriving DecidableEq, Repr

/-- The block. -/
def Use.addr : Use α → α
  | .touch a _ => a
  | .free a => a

/-- The block, of a `free`. -/
def Use.freed : Use α → Option α
  | .touch _ _ => none
  | .free a => some a

/-- The blocks that a log frees, in order, with repetitions. -/
def freed (log : List (Use α)) : List α := log.filterMap Use.freed

/-- Nothing is used, nor freed again, behind its `free`. -/
def Tidy (log : List (Use α)) : Prop := log.Pairwise fun e e' => e.freed ≠ some e'.addr

@[simp] theorem freed_nil : freed ([] : List (Use α)) = [] := rfl

@[simp] theorem freed_touch (a : α) (j : ℕ) (log : List (Use α)) :
    freed (.touch a j :: log) = freed log := rfl

@[simp] theorem freed_free (a : α) (log : List (Use α)) : freed (.free a :: log) = a :: freed log :=
  rfl

@[simp] theorem freed_append (log log' : List (Use α)) :
    freed (log ++ log') = freed log ++ freed log' :=
  List.filterMap_append

theorem freed_flatMap (bs : List β) (L : β → List (Use α)) :
    freed (bs.flatMap L) = bs.flatMap fun b => freed (L b) :=
  List.filterMap_flatMap

theorem mem_freed {log : List (Use α)} {a : α} : a ∈ freed log ↔ .free a ∈ log := by
  have hfreed : ∀ e : Use α, e.freed = some a ↔ e = .free a := by
    rintro (_ | _) <;> simp [Use.freed]
  simp [freed, hfreed]

theorem tidy_append {log log' : List (Use α)} :
    Tidy (log ++ log') ↔ Tidy log ∧ Tidy log' ∧ ∀ a ∈ freed log, ∀ e ∈ log', a ≠ e.addr := by
  refine List.pairwise_append.trans (and_congr_right fun _ => and_congr_right fun _ => ?_)
  refine ⟨?_, ?_⟩
  · intro h a ha e he heq
    exact h _ (mem_freed.mp ha) e he (congrArg some heq)
  · intro h e he e' he' heq
    exact h e'.addr (List.mem_filterMap.mpr ⟨e, he, heq⟩) e' he' rfl

/-- A log is tidy when its parts are, and use different blocks. -/
theorem tidy_flatMap {bs : List β} {L : β → List (Use α)} (h : ∀ b ∈ bs, Tidy (L b))
    (hdisj : bs.Pairwise fun b b' => ∀ e ∈ L b, ∀ e' ∈ L b', e.addr ≠ e'.addr) :
    Tidy (bs.flatMap L) := by
  refine List.pairwise_flatMap.mpr ⟨h, hdisj.imp fun hne e he e' he' heq => ?_⟩
  refine hne e he e' he' ?_
  cases e with
  | touch _ _ => cases heq
  | free _ => exact Option.some.inj heq

/-- A log that frees no block twice is tidy when it frees none of the blocks it reads. -/
theorem tidy_of_nodup {log : List (Use α)} (hnodup : (freed log).Nodup)
    (htouch : ∀ a j, .touch a j ∈ log → a ∉ freed log) : Tidy log := by
  induction log with
  | nil => exact List.Pairwise.nil
  | cons e log ih =>
    cases e with
    | touch a j =>
      refine List.Pairwise.cons (fun _ _ h => by cases h) (ih hnodup fun a j h => ?_)
      exact htouch a j (List.mem_cons_of_mem _ h)
    | free a =>
      obtain ⟨ha, hnodup⟩ := List.nodup_cons.mp hnodup
      refine List.Pairwise.cons (fun e he h => ?_) (ih hnodup fun a' j h => ?_)
      · cases e with
        | touch a' j =>
          obtain rfl := Option.some.inj h
          exact htouch _ j (List.mem_cons_of_mem _ he) List.mem_cons_self
        | free a' =>
          obtain rfl := Option.some.inj h
          exact ha (mem_freed.mpr he)
      · exact fun h' => htouch a' j (List.mem_cons_of_mem _ h) (List.mem_cons_of_mem _ h')

/-! ## Loops

A loop over values is one computation after the other. Either its rounds are known and its log
follows, or it is known to have returned and its rounds follow. -/

/-- Run `f` on one value after the other. -/
def forEach (f : β → Logged (Use α) η σ PUnit) : List β → Logged (Use α) η σ PUnit
  | [] => pure ⟨⟩
  | b :: bs => do
    f b
    forEach f bs

/-- A loop whose rounds return, by what holds of the values that are left. The log is that of the
rounds, one behind the other. -/
theorem forEach_run {f : β → Logged (Use α) η σ PUnit} {I : List β → σ → Prop}
    {L : β → List (Use α)}
    (step : ∀ b bs s, I (b :: bs) s → ∃ s', f b s = ⟨L b, .ok (⟨⟩, s')⟩ ∧ I bs s') {bs : List β}
    {s : σ} (hs : I bs s) : ∃ s', forEach f bs s = ⟨bs.flatMap L, .ok (⟨⟩, s')⟩ ∧ I [] s' := by
  induction bs generalizing s with
  | nil => exact ⟨s, rfl, hs⟩
  | cons b bs ih =>
    obtain ⟨s₁, hb, h₁⟩ := step b bs s hs
    obtain ⟨s', hbs, h'⟩ := ih h₁
    refine ⟨s', ?_, h'⟩
    rw [forEach, Logged.bind_eq hb, hbs, List.flatMap_cons]

/-- A loop whose rounds leave the state alone has the logs of its rounds, one behind the other. -/
theorem forEach_eq {f : β → Logged (Use α) η σ PUnit} {L : β → List (Use α)} {bs : List β} {s : σ}
    (h : ∀ b ∈ bs, f b s = ⟨L b, .ok (⟨⟩, s)⟩) :
    forEach f bs s = ⟨bs.flatMap L, .ok (⟨⟩, s)⟩ := by
  have hstep (b : β) (bs : List β) (s' : σ)
      (hI : s' = s ∧ ∀ b' ∈ b :: bs, f b' s = ⟨L b', .ok (⟨⟩, s)⟩) :
      ∃ s'', f b s' = ⟨L b, .ok (⟨⟩, s'')⟩ ∧ s'' = s ∧ ∀ b' ∈ bs, f b' s = ⟨L b', .ok (⟨⟩, s)⟩ := by
    obtain ⟨rfl, hI⟩ := hI
    obtain ⟨hb, hbs⟩ := List.forall_mem_cons.mp hI
    exact ⟨s', hb, rfl, hbs⟩
  obtain ⟨s', hrun, rfl, -⟩ := forEach_run
    (I := fun bs s' => s' = s ∧ ∀ b ∈ bs, f b s = ⟨L b, .ok (⟨⟩, s)⟩) hstep ⟨rfl, h⟩
  exact hrun

/-- What is known of a loop that returned: of the state, of its log, and of its values. -/
theorem forEach_ok {f : β → Logged (Use α) η σ PUnit} {I : σ → Prop} {E : Use α → Prop}
    {P : β → Prop} {bs : List β}
    (step : ∀ b ∈ bs, ∀ s s', I s → (f b s).res = .ok (⟨⟩, s') →
      I s' ∧ (∀ e ∈ (f b s).log, E e) ∧ P b) {s s' : σ} (hs : I s)
    (h : (forEach f bs s).res = .ok (⟨⟩, s')) :
    I s' ∧ (∀ e ∈ (forEach f bs s).log, E e) ∧ ∀ b ∈ bs, P b := by
  induction bs generalizing s with
  | nil =>
    obtain ⟨-, rfl⟩ := Prod.mk.inj (Except.ok.inj h)
    exact ⟨hs, List.forall_mem_nil _, List.forall_mem_nil _⟩
  | cons b bs ih =>
    obtain ⟨hstep, hsteps⟩ := List.forall_mem_cons.mp step
    rw [forEach] at h ⊢
    obtain ⟨u, s₁, hb, hbs, hlog⟩ := Logged.bind_eq_ok h
    obtain ⟨h₁, hE, hP⟩ := hstep s s₁ hs hb
    obtain ⟨h', hE', hP'⟩ := ih hsteps h₁ hbs
    rw [hlog]
    exact ⟨h', List.forall_mem_append.mpr ⟨hE, hE'⟩, List.forall_mem_cons.mpr ⟨hP, hP'⟩⟩

/-! ## Freeing an array

The entries first and the array behind them. An array that is `NULL` has no entries to read, and
reading one is a fault. -/

section Programs

variable (fault : η)

/-- Free what a pointer points to. A pointer that was never set is a fault, and `NULL` is passed
over. -/
def free : Cell α → Logged (Use α) η σ PUnit
  | .indet => Logged.halt fault
  | .null => pure ⟨⟩
  | .ptr a => Logged.emit (.free a)

/-- Read entry `j` of an array, if it is one of the array's. -/
def entry (b : Option (Block α)) (j : ℕ) : Logged (Use α) η σ (List (Cell α)) :=
  match b with
  | none => Logged.halt fault
  | some b => do
    Logged.emit (.touch b.addr j)
    match b.entries[j]? with
    | none => Logged.halt fault
    | some cells => pure cells

/-- Free what entry `j` of an array points to, pointer by pointer. -/
def freeEntry (b : Option (Block α)) (j : ℕ) : Logged (Use α) η σ PUnit := do
  let cells ← entry fault b j
  forEach (free fault) cells

/-- Free what the first `n` entries of an array point to, then the array. -/
def freeArray (b : Option (Block α)) (n : ℕ) : Logged (Use α) η σ PUnit := do
  forEach (freeEntry fault b) (List.range n)
  free fault (cellOf b)

end Programs

/-- The first `n` entries of an array are there, and none of their pointers is indeterminate. -/
def Readable (b : Option (Block α)) (n : ℕ) : Prop :=
  match b with
  | none => n = 0
  | some b => n ≤ b.entries.length ∧ ∀ cells ∈ b.entries.take n, .indet ∉ cells

/-- The uses of a round: entry `j` is read, and what it points to is freed. -/
def entryUses (b : Block α) (j : ℕ) : List (Use α) :=
  .touch b.addr j :: ((b.entries[j]?.getD []).filterMap Cell.target).map .free

/-- The log of `freeArray`, as a list. -/
def uses : Option (Block α) → ℕ → List (Use α)
  | none, _ => []
  | some b, n => (List.range n).flatMap (entryUses b) ++ [.free b.addr]

variable {fault : η} {b : Block α} {o : Option (Block α)} {n j : ℕ} {s s' : σ} {u : PUnit}

theorem free_eq {c : Cell α} (h : c ≠ .indet) :
    free fault c s = ⟨c.target.toList.map .free, .ok (⟨⟩, s)⟩ := by
  cases c with
  | indet => exact absurd rfl h
  | null => rfl
  | ptr a => rfl

theorem forEach_free {cells : List (Cell α)} (h : .indet ∉ cells) :
    forEach (free fault) cells s = ⟨(cells.filterMap Cell.target).map .free, .ok (⟨⟩, s)⟩ := by
  rw [forEach_eq fun c hc => free_eq (ne_of_mem_of_not_mem hc h)]
  congr 1
  induction cells with
  | nil => rfl
  | cons c cells ih =>
    rw [List.flatMap_cons, ih fun hc => h (List.mem_cons_of_mem _ hc), List.filterMap_cons]
    cases c.target <;> rfl

theorem freeEntry_eq {cells : List (Cell α)} (hj : b.entries[j]? = some cells)
    (h : .indet ∉ cells) :
    freeEntry fault (some b) j s = ⟨entryUses b j, .ok (⟨⟩, s)⟩ := by
  have hentry : entry fault (some b) j s = ⟨[.touch b.addr j], .ok (cells, s)⟩ := by
    rw [entry, Logged.emit_bind_apply, hj]
    rfl
  rw [freeEntry, Logged.bind_eq hentry, forEach_free h, entryUses, hj]
  rfl

/-- A round that returned has found its entry, with no indeterminate pointer in it. Reading past
the end of the array or freeing such a pointer halts the run. -/
theorem freeEntry_ok (h : (freeEntry fault o j s).res = .ok (⟨⟩, s')) :
    s' = s ∧ ∃ b cells, o = some b ∧ b.entries[j]? = some cells ∧ .indet ∉ cells := by
  obtain ⟨cells, s₁, hentry, hcells, -⟩ := Logged.bind_eq_ok h
  cases o with
  | none => cases hentry
  | some b =>
    rw [entry, Logged.emit_bind_apply] at hentry
    cases hj : b.entries[j]? with
    | none =>
      rw [hj] at hentry
      cases hentry
    | some cells' =>
      rw [hj] at hentry
      cases hentry
      have hfree (c : Cell α) (s₁ s₂ : σ) (hs : s₁ = s)
          (hc : (free fault c s₁).res = .ok (⟨⟩, s₂)) :
          s₂ = s ∧ (∀ e ∈ (free fault c s₁).log, True) ∧ c ≠ .indet := by
        have hindet : c ≠ .indet := by
          rintro rfl
          cases hc
        rw [free_eq hindet] at hc
        cases hc
        exact ⟨hs, fun _ _ => trivial, hindet⟩
      obtain ⟨hs, -, hindet⟩ := forEach_ok (fun c _ => hfree c) rfl hcells
      exact ⟨hs, b, cells, rfl, hj, fun hmem => hindet _ hmem rfl⟩

/-- `freeArray` returns from an array it can read, with this log and nothing else changed. -/
theorem freeArray_eq (h : Readable o n) :
    freeArray fault o n s = ⟨uses o n, .ok (⟨⟩, s)⟩ := by
  cases o with
  | none =>
    obtain rfl : n = 0 := h
    rfl
  | some b =>
    obtain ⟨hlen, hindet⟩ := h
    have hrounds : forEach (freeEntry fault (some b)) (List.range n) s =
        ⟨(List.range n).flatMap (entryUses b), .ok (⟨⟩, s)⟩ := by
      refine forEach_eq fun j hj => ?_
      have hlt := List.mem_range.mp hj
      refine freeEntry_eq (List.getElem?_eq_getElem (Nat.lt_of_lt_of_le hlt hlen)) (hindet _ ?_)
      exact List.mem_take_iff_getElem.mpr
        ⟨j, Nat.lt_min.mpr ⟨hlt, Nat.lt_of_lt_of_le hlt hlen⟩, rfl⟩
    rw [freeArray, Logged.bind_eq hrounds]
    rfl

/-- `freeArray` returns only from an array it can read. Were there fewer entries than rounds, the
round behind the last entry would have halted. -/
theorem readable_of_ok (h : (freeArray fault o n s).res = .ok (u, s')) : Readable o n := by
  obtain ⟨_, s₁, hrounds, -, -⟩ := Logged.bind_eq_ok h
  obtain ⟨-, -, hentries⟩ := forEach_ok (I := fun _ => True) (E := fun _ => True)
    (P := fun j => ∃ b cells, o = some b ∧ b.entries[j]? = some cells ∧ .indet ∉ cells)
    (fun j _ s₁ s₂ _ hj => ⟨trivial, fun _ _ => trivial, (freeEntry_ok hj).2⟩) trivial hrounds
  cases o with
  | none =>
    by_contra h0
    obtain ⟨_, _, hnone, -⟩ := hentries 0 (List.mem_range.mpr (Nat.pos_of_ne_zero h0))
    cases hnone
  | some b =>
    refine ⟨?_, fun cells hcells => ?_⟩
    · by_contra hlt
      obtain ⟨_, _, hb, hj, -⟩ := hentries b.entries.length (List.mem_range.mpr (Nat.not_le.mp hlt))
      cases hb
      rw [List.getElem?_eq_none (Nat.le_refl _)] at hj
      cases hj
    · obtain ⟨j, hj, rfl⟩ := List.mem_take_iff_getElem.mp hcells
      obtain ⟨hjn, hjlen⟩ := Nat.lt_min.mp hj
      obtain ⟨_, cells, hb, hget, hindet⟩ := hentries j (List.mem_range.mpr hjn)
      cases hb
      rw [List.getElem?_eq_getElem hjlen] at hget
      obtain rfl := Option.some.inj hget
      exact hindet

/-! ## What the log frees

The log is a list, and what it frees, what it reads and whether it is tidy are read off it. -/

theorem freed_map_free (as : List α) : freed (as.map .free) = as := by
  induction as with
  | nil => rfl
  | cons a as ih => rw [List.map_cons, freed_free, ih]

/-- The log frees what the first entries point to, and then the array. -/
theorem freed_uses (b : Block α) {n : ℕ} (h : n ≤ b.entries.length) :
    freed (uses (some b) n) = targets (b.entries.take n) ++ [b.addr] := by
  have hrounds : (List.range n).flatMap (fun j => freed (entryUses b j)) =
      targets (b.entries.take n) := by
    induction n with
    | zero => rfl
    | succ n ih =>
      rw [List.range_succ, List.flatMap_append, ih (Nat.le_of_succ_le h), List.take_add_one,
        targets_append, List.getElem?_eq_getElem h]
      simp [entryUses, freed_map_free, List.getElem?_eq_getElem h, targets]
  rw [uses, freed_append, freed_flatMap, hrounds]
  rfl

/-- The first `n` entries can be read, and the others point to nothing. So a loop over the first `n`
frees all that the array owns. -/
def Spent (o : Option (Block α)) (n : ℕ) : Prop :=
  Readable o n ∧ ∀ b, o = some b → targets (b.entries.drop n) = []

/-- Then everything that the array owns is freed, in some order. -/
theorem Spent.perm (h : Spent o n) : (freed (uses o n)).Perm (owned o) := by
  cases o with
  | none => exact List.Perm.refl _
  | some b =>
    have hall : targets (b.entries.take n) = targets b.entries := by
      calc targets (b.entries.take n)
          = targets (b.entries.take n) ++ targets (b.entries.drop n) := by
            rw [h.2 b rfl, List.append_nil]
        _ = targets b.entries := by rw [← targets_append, List.take_append_drop]
    rw [freed_uses b h.1.1, hall]
    exact List.perm_append_singleton _ _

/-- The log uses the array, and what its first entries point to. -/
theorem addr_of_uses {e : Use α} (h : e ∈ uses o n) : ∃ b, o = some b ∧
    (e.addr = b.addr ∨ ∃ j < n, ∃ cells, b.entries[j]? = some cells ∧ .ptr e.addr ∈ cells) := by
  cases o with
  | none => cases h
  | some b =>
    refine ⟨b, rfl, ?_⟩
    rcases List.mem_append.mp h with h | h
    · obtain ⟨j, hj, h⟩ := List.mem_flatMap.mp h
      rcases List.mem_cons.mp h with rfl | h
      · exact .inl rfl
      · obtain ⟨a, ha, rfl⟩ := List.mem_map.mp h
        refine .inr ⟨j, List.mem_range.mp hj, ?_⟩
        cases hcells : b.entries[j]? with
        | none => simp [hcells] at ha
        | some cells =>
          have hptr : .ptr a ∈ cells := by simpa [hcells, target_eq_some] using ha
          exact ⟨cells, rfl, hptr⟩
    · obtain rfl := List.mem_singleton.mp h
      exact .inl rfl

/-- The log reads entries of the array with an index below `n` only. -/
theorem touch_mem_uses {a : α} (h : .touch a j ∈ uses o n) : j < n := by
  cases o with
  | none => cases h
  | some b =>
    rcases List.mem_append.mp h with h | h
    · obtain ⟨i, hi, h⟩ := List.mem_flatMap.mp h
      rcases List.mem_cons.mp h with h | h
      · cases h
        exact List.mem_range.mp hi
      · obtain ⟨_, -, h⟩ := List.mem_map.mp h
        cases h
    · cases List.mem_singleton.mp h

/-- The log is tidy when the pointers of the array are all different. The entries are read before
the array is freed, and what they point to is freed in the round of its entry only. -/
theorem tidy_uses (h : n ≤ b.entries.length) (hnodup : b.addrs.Nodup) :
    Tidy (uses (some b) n) := by
  obtain ⟨haddr, hnodup⟩ := List.nodup_cons.mp hnodup
  have hsub : List.Sublist (targets (b.entries.take n)) (targets b.entries) := by
    conv_rhs => rw [← List.take_append_drop n b.entries, targets_append]
    exact List.sublist_append_left _ _
  have hfreed := freed_uses b h
  rw [uses, freed_append] at hfreed
  have hrounds := List.append_cancel_right hfreed
  refine tidy_append.mpr ⟨tidy_of_nodup ?_ fun a j hj => ?_, List.pairwise_singleton _ _,
    fun a ha e he => ?_⟩
  · rw [hrounds]
    exact hnodup.sublist hsub
  · rw [hrounds]
    obtain ⟨i, -, hj⟩ := List.mem_flatMap.mp hj
    rcases List.mem_cons.mp hj with hj | hj
    · cases hj
      exact fun hmem => haddr (hsub.subset hmem)
    · obtain ⟨_, -, hj⟩ := List.mem_map.mp hj
      cases hj
  · rw [hrounds] at ha
    obtain rfl := List.mem_singleton.mp he
    exact ne_of_mem_of_not_mem (hsub.subset ha) haddr

end Ownership
