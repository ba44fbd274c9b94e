import FastWasm.Walk

/-!
# What the outcome of a walk depends on

Whether validation returns, and where it leaves the cursor, depends on the bytes and on very little
of the block lists: how many `if`s are pending, how many blocks are open, and whether an `else` has
gone astray (`ListLens`). The same walk over these numbers is `scanLoop`. It knows nothing of
entries, addresses and lists, so it can be evaluated on the bytes of a body, and it has the outcome
of the walk (`loop_scan`): an `Except` of the cursor at the end or the reason to halt.

A condition on a module that says when its validation returns, and why not, is stated with this
scan. It is a function of the bytes alone, and none of the claims about what validation finds is in
it.
-/

namespace FastWasm

open Logged

/-- The numbers that the outcome of a walk depends on: the pending `if`s, the open blocks, and
whether an `else` has poisoned `iftmp`. -/
structure ListLens where
  /-- the length of `iftmp` -/
  ifs : ℕ
  /-- the length of `blktmp` -/
  opens : ℕ
  /-- an `else` has gone astray -/
  stray : Bool
  deriving DecidableEq, Repr

/-- The lengths of the lists of a function. -/
def FuncBlks.lens (s : FuncBlks) : ListLens := ⟨s.iftmp.length, s.blktmp.length, s.stray.isSome⟩

namespace ListLens

/-- Behind the opening of a `block` or `loop`, or of an `if` with a malformed type. -/
def opened (k : ListLens) : ListLens := { k with opens := k.opens + 1 }

/-- Behind the opening of an `if`: one block more, and one more pending `if`, unless an `else` has
gone astray. -/
def if_ (k : ListLens) : Except Halt ListLens :=
  if k.stray then .error (.fault .badPtr) else .ok { k.opened with ifs := k.ifs + 1 }

/-- Behind an `else`, which takes a pending `if` or goes astray. -/
def else_ (k : ListLens) : Except Halt ListLens :=
  if 0 < k.ifs then .ok { k with ifs := k.ifs - 1 }
  else if k.stray then .error (.fault .badPtr)
  else .ok { k with stray := true }

/-- Behind an `end`, which takes an open block if there is one. -/
def end_ (k : ListLens) : Except Halt ListLens :=
  if k.opens = 0 then .ok k
  else if k.stray then .error (.fault .overBytes)
  else .ok { k with opens := k.opens - 1 }

end ListLens

section Handlers

variable {mem : Mem} {body body' : FwStr} {s s' : FuncBlks}

/-- A handler, for its cursor and the lengths of the lists, with the halts that come from the lists
and those that come from the bytes. -/
def ConsumeFn.scan (mem : Mem) (body : FwStr) (k : ListLens) :
    ConsumeFn → Except Halt (FwStr × ListLens)
  | .block =>
    match fwStrLebGetu mem body 32 with
    | .hang => .error .hang
    | .strErr => .ok (body, k.opened)
    | .got _ body' => .ok (body', k.opened)
  | .if_ =>
    match fwStrLebGetu mem body 32 with
    | .hang => .error .hang
    | .strErr => .ok (body, k.opened)
    | .got _ body' => k.if_.map fun k' => (body', k')
  | .else_ => k.else_.map fun k' => (body, k')
  | .end_ => k.end_.map fun k' => (body, k')
  | fn =>
    match fn.next mem body with
    | none => .error .hang
    | some body' => .ok (body', k)

theorem scan_plain {fn : ConsumeFn} (hfn : fn.Plain) (k : ListLens) :
    fn.scan mem body k = match fn.next mem body with
      | none => .error .hang
      | some body' => .ok (body', k) := by
  rcases hfn with rfl | rfl | rfl | rfl <;> rfl

/-- The outcome of a handler is that of its scan on the lengths, by one case for each handler. The
lists are only asked whether they are empty, and for their last entry, so their lengths tell which
branch is taken. -/
theorem consume_scan (code : UInt8) (fn : ConsumeFn) (body : FwStr) (s : FuncBlks) :
    (fn.consume mem code body s).res.map (fun r => (r.1.2, r.2.lens)) =
      fn.scan mem body s.lens := by
  by_cases hfn : fn.Plain
  · rw [consume_plain hfn, scan_plain hfn]
    cases fn.next mem body with
    | none => rfl
    | some body' => rfl
  cases fn with
  | none_ | c32 | c64 | brtbl => exact absurd (by decide) hfn
  | block =>
    rw [consume_block, ConsumeFn.scan]
    have hopened : s.openBlk.lens = s.lens.opened := by
      simp [FuncBlks.lens, FuncBlks.openBlk, ListLens.opened]
    rcases fwStrLebGetu mem body 32 with _ | _ | ⟨v, body'⟩
    · rfl
    · exact congrArg (fun k => Except.ok (body, k)) hopened
    · exact congrArg (fun k => Except.ok (body', k)) hopened
  | if_ =>
    rw [consume_if, ConsumeFn.scan]
    have hopened : s.openBlk.lens = s.lens.opened := by
      simp [FuncBlks.lens, FuncBlks.openBlk, ListLens.opened]
    rcases fwStrLebGetu mem body 32 with _ | _ | ⟨v, body'⟩
    · rfl
    · exact congrArg (fun k => Except.ok (body, k)) hopened
    · rcases hs : s.stray with _ | pos
      · simp [ListLens.if_, FuncBlks.lens, hs, Except.map, FuncBlks.pushIf, FuncBlks.setStart,
          FuncBlks.setEntry, FuncBlks.openBlk, ListLens.opened]
      · simp [ListLens.if_, FuncBlks.lens, hs, Except.map]
  | else_ =>
    rw [consume_else, ConsumeFn.scan]
    rcases hl : s.iftmp.getLast? with _ | blk
    · have hnil := List.getLast?_eq_none_iff.mp hl
      rcases hs : s.stray with _ | pos <;>
        simp [ListLens.else_, FuncBlks.lens, hs, hnil, Except.map, FuncBlks.goAstray]
    · have hpos : 0 < s.iftmp.length := List.length_pos_of_mem (List.mem_of_getLast? hl)
      simp [ListLens.else_, FuncBlks.lens, hpos, Except.map, FuncBlks.popIf, FuncBlks.setEntry]
  | end_ =>
    rw [consume_end, ConsumeFn.scan]
    rcases hl : s.blktmp.getLast? with _ | blk
    · have hnil := List.getLast?_eq_none_iff.mp hl
      simp [ListLens.end_, FuncBlks.lens, hnil, Except.map]
    · have hne : s.blktmp ≠ [] := List.ne_nil_of_mem (List.mem_of_getLast? hl)
      rcases hs : s.stray with _ | pos <;>
        simp [ListLens.end_, FuncBlks.lens, hs, hne, Except.map, FuncBlks.closeBlk,
          FuncBlks.setEntry]

/-- A handler leaves the cursor where it is said to, whatever the lists are. Those that read no
immediate leave it behind the opcode, the others behind what they read, or where a `STR_ERR` stopped
them. -/
theorem scan_next {fn : ConsumeFn} {k k' : ListLens} (h : fn.scan mem body k = .ok (body', k')) :
    fn.next mem body = some body' := by
  by_cases hfn : fn.Plain
  · rw [scan_plain hfn] at h
    cases hn : fn.next mem body with
    | none => simp [hn] at h
    | some body₁ =>
      simp only [hn, Except.ok.injEq, Prod.mk.injEq] at h
      rw [h.1]
  cases fn with
  | none_ | c32 | c64 | brtbl => exact absurd (by decide) hfn
  | block =>
    rw [ConsumeFn.scan] at h
    rw [ConsumeFn.next]
    rcases hr : fwStrLebGetu mem body 32 with _ | _ | ⟨v, body₁⟩ <;> simp only [hr] at h
    · cases h
    all_goals
      obtain ⟨rfl, -⟩ := Prod.mk.inj (Except.ok.inj h)
      rfl
  | if_ =>
    rw [ConsumeFn.scan] at h
    rw [ConsumeFn.next]
    rcases hr : fwStrLebGetu mem body 32 with _ | _ | ⟨v, body₁⟩ <;> simp only [hr] at h
    · cases h
    · obtain ⟨rfl, -⟩ := Prod.mk.inj (Except.ok.inj h)
      rfl
    · cases hk : k.if_ with
      | error e => simp [hk, Except.map] at h
      | ok k₁ =>
        simp only [hk, Except.map, Except.ok.injEq, Prod.mk.injEq] at h
        rw [← h.1]
        rfl
  | else_ =>
    rw [ConsumeFn.scan] at h
    cases hk : k.else_ with
    | error e => simp [hk, Except.map] at h
    | ok k₁ =>
      simp only [hk, Except.map, Except.ok.injEq, Prod.mk.injEq] at h
      rw [← h.1]
      rfl
  | end_ =>
    rw [ConsumeFn.scan] at h
    cases hk : k.end_ with
    | error e => simp [hk, Except.map] at h
    | ok k₁ =>
      simp only [hk, Except.map, Except.ok.injEq, Prod.mk.injEq] at h
      rw [← h.1]
      rfl

end Handlers

/-! ## Rounds

A round is what the handler does with the numbers, at the cursor behind the opcode. -/

/-- One round, for the cursor and the numbers. It halts where the round does. -/
def scanStep (mem : Mem) (body : FwStr) (k : ListLens) : Except Halt (FwStr × ListLens) :=
  match fwGetInstr (mem body.pos) with
  | none => .ok (⟨body.pos + 1, body.last⟩, k)
  | some instr =>
    match instr.consume with
    | none => .error (.fault .nullHandler)
    | some fn => fn.scan mem ⟨body.pos + 1, body.last⟩ k

/-- The walk, for the cursor and the numbers. It goes through as many rounds as the walk, and
fetches where that does. -/
def scanLoop (mem : Mem) : ℕ → FwStr → ListLens → Except Halt FwStr
  | 0, _, _ => .error .fuel
  | n + 1, body, k =>
    if body.pos < body.last then
      match scanStep mem body k with
      | .error h => .error h
      | .ok (body', k') => scanLoop mem n body' k'
    else .ok body

section Rounds

variable {mem : Mem} {body : FwStr}

/-- The outcome of a round is that of its scan, with the entries forgotten. -/
theorem walkStep_scan (s : FuncBlks) :
    (walkStep mem body s).res.map (fun r => (r.1, r.2.lens)) = scanStep mem body s.lens := by
  rw [walkStep, scanStep]
  cases fwGetInstr (mem body.pos) with
  | none => rfl
  | some instr =>
    cases hc : instr.consume with
    | none =>
      simp only [hc]
      rfl
    | some fn =>
      simp only [hc]
      rw [← consume_scan instr.code]
      rcases hr : (fn.consume mem instr.code ⟨body.pos + 1, body.last⟩ s).res with e | ⟨⟨st, b⟩, s'⟩
      · rw [bind_of_error hr]
        rfl
      · rw [bind_of_ok hr]
        rfl

/-- The outcome of the walk is that of the scan, by induction on the rounds: the cursor it ends
with, or why it halts. -/
theorem loop_scan :
    ∀ (n : ℕ) (body : FwStr) (s : FuncBlks),
      (fwModuleValidateLoop mem n body s).res.map Prod.fst = (scanLoop mem n body s.lens).map some
  | 0, _, _ => rfl
  | n + 1, body, s => by
    rw [scanLoop]
    rcases Nat.lt_or_ge body.pos body.last with hlt | hge
    · rw [if_pos hlt, ← walkStep_scan s]
      rcases hs : (walkStep mem body s).res with e | ⟨body', s'⟩
      · rw [loop_step_error hlt hs]
        rfl
      · rw [loop_step hlt hs]
        exact loop_scan n body' s'
    · rw [if_neg (Nat.not_lt.mpr hge), loop_of_le hge]
      rfl

end Rounds

end FastWasm
