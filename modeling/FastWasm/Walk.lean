import FastWasm.Consume

/-!
# The validator's walk

What one handler does to the cursor and to the block lists, what one round of the walk does, and
what a whole walk visits: the cursor only moves forward, and every position the walk fetches an
opcode at leads to the next one (`WalksTo.next`).

A handler is described from both sides. Forwards there is an equation for each (`consume_plain`,
`consume_block` and so on), which evaluates it on known bytes; backwards there is one inversion for
all (`consume_cases`), which says what a handler that returned has done. Every invariant of the
block lists is a case analysis on the latter.

Where the cursor goes does not depend on the block lists (`ConsumeFn.next`, `instrNext`). So the
executor, which reads the same immediates and has other lists, can be compared with the walk
position by position.
-/

namespace FastWasm

open Logged

/-! ## The cursor

Where an instruction ends is decided by its bytes, whatever the block lists are. -/

/-- The cursor after a handler, which does not depend on the block lists; `none` when a read never
ends. That the handler may halt for the sake of the lists is another matter. -/
def ConsumeFn.next (mem : Mem) : ConsumeFn → FwStr → Option FwStr
  | .none_, body | .else_, body | .end_, body => some body
  | .c32, body | .block, body | .if_, body => (fwStrLebGetu mem body 32).next body
  | .c64, body => (fwStrLebGetu mem body 64).next body
  | .brtbl, body =>
    match fwStrLebGetu mem body 32 with
    | .hang => none
    | .strErr => some body
    | .got blknum body =>
      match fwInstrConsumeBrtblLoop mem blknum.toUInt32.toNat body with
      | none => none
      | some (false, body) => some body
      | some (true, body) => (fwStrLebGetu mem body 32).next body

/-- A cursor that moved forward within the same bounds. -/
def FwStr.Le (body body' : FwStr) : Prop := body.pos ≤ body'.pos ∧ body'.last = body.last

theorem FwStr.Le.refl (body : FwStr) : body.Le body := ⟨le_refl _, rfl⟩

theorem FwStr.Le.trans {a b c : FwStr} (h₁ : a.Le b) (h₂ : b.Le c) : a.Le c :=
  ⟨h₁.1.trans h₂.1, h₂.2.trans h₁.2⟩

theorem getu_le {mem : Mem} {str str' : FwStr} {maxbit : ℕ} {v : UInt64}
    (h : fwStrLebGetu mem str maxbit = .got v str') : str.Le str' := by
  obtain ⟨-, hlast, k, -, -, -, hpos, -⟩ := getu_eq_got h
  exact ⟨by omega, hlast⟩

/-- A read that has an end was `str_err`, or found a number. -/
theorem leb_next_eq_some {read : LebRead} {str str' : FwStr} (h : read.next str = some str') :
    (read = .strErr ∧ str' = str) ∨ ∃ v, read = .got v str' := by
  cases read with
  | hang => cases h
  | strErr => exact .inl ⟨rfl, (Option.some.inj h).symm⟩
  | got v str₁ =>
    obtain rfl := Option.some.inj h
    exact .inr ⟨v, rfl⟩

theorem leb_next_le {mem : Mem} {str str' : FwStr} {maxbit : ℕ}
    (h : (fwStrLebGetu mem str maxbit).next str = some str') : str.Le str' := by
  obtain ⟨-, rfl⟩ | ⟨v, hr⟩ := leb_next_eq_some h
  · exact .refl _
  · exact getu_le hr

theorem brtblLoop_le {mem : Mem} :
    ∀ {n : ℕ} {body body' : FwStr} {more : Bool},
      fwInstrConsumeBrtblLoop mem n body = some (more, body') → body.Le body'
  | 0, body, body', more, h => by
    obtain ⟨-, rfl⟩ := Prod.mk.inj (Option.some.inj h)
    exact .refl _
  | n + 1, body, body', more, h => by
    rw [fwInstrConsumeBrtblLoop] at h
    cases hr : fwStrLebGetu mem body 32 with
    | hang => simp [hr] at h
    | strErr =>
      simp only [hr] at h
      obtain ⟨-, rfl⟩ := Prod.mk.inj (Option.some.inj h)
      exact .refl _
    | got v body₁ =>
      simp only [hr] at h
      exact (getu_le hr).trans (brtblLoop_le h)

/-- No handler moves the cursor back, nor past what it reads; its end stays the same. A handler that
is stopped by a `STR_ERR` leaves the cursor where the failed read began. -/
theorem next_le {mem : Mem} {fn : ConsumeFn} {body body' : FwStr}
    (h : fn.next mem body = some body') : body.Le body' := by
  cases fn with
  | none_ | else_ | end_ =>
    obtain rfl := Option.some.inj h
    exact .refl _
  | c32 | block | if_ | c64 => exact leb_next_le h
  | brtbl =>
    rw [ConsumeFn.next] at h
    cases hr : fwStrLebGetu mem body 32 with
    | hang => simp [hr] at h
    | strErr =>
      simp only [hr] at h
      obtain rfl := Option.some.inj h
      exact .refl _
    | got v body₁ =>
      simp only [hr] at h
      rcases hl : fwInstrConsumeBrtblLoop mem v.toUInt32.toNat body₁ with _ | ⟨_ | _, body₂⟩
      · simp only [hl, reduceCtorEq] at h
      · simp only [hl] at h
        obtain rfl := Option.some.inj h
        exact (getu_le hr).trans (brtblLoop_le hl)
      · simp only [hl] at h
        exact ((getu_le hr).trans (brtblLoop_le hl)).trans (leb_next_le h)

/-! ## One handler

What a handler does is one of a few things, and each is a constructor. So a fact about handlers has
a case for each of them and never unfolds one. -/

/-- The handlers of straight-line instructions, which leave the block lists alone. -/
def ConsumeFn.Plain (fn : ConsumeFn) : Prop :=
  fn = .none_ ∨ fn = .c32 ∨ fn = .c64 ∨ fn = .brtbl

instance (fn : ConsumeFn) : Decidable fn.Plain :=
  inferInstanceAs (Decidable (_ ∨ _ ∨ _ ∨ _))

section Handlers

variable {mem : Mem} {code : UInt8} {body body' : FwStr} {s s' : FuncBlks}

/-- A read in a handler: nothing is logged, the block lists stay. -/
theorem consumeLeb_eq (maxbit : ℕ) (onErr : Status) :
    fwInstrConsumeLeb mem maxbit onErr body s =
      ⟨[], match fwStrLebGetu mem body maxbit with
        | .hang => .error .hang
        | .strErr => .ok ((onErr, body), s)
        | .got _ body' => .ok ((.ok, body'), s)⟩ := by
  rw [fwInstrConsumeLeb]
  rcases fwStrLebGetu mem body maxbit with _ | _ | ⟨v, body'⟩ <;> rfl

/-- Straight-line instructions leave the block lists alone and are `FW_OK` even when their
immediates are malformed: `str_err` returns it too. -/
theorem consume_plain {fn : ConsumeFn} (hfn : fn.Plain) :
    fn.consume mem code body s =
      ⟨[], match fn.next mem body with
        | none => .error .hang
        | some body' => .ok ((.ok, body'), s)⟩ := by
  rcases hfn with rfl | rfl | rfl | rfl
  · rfl
  · change fwInstrConsumeLeb mem 32 .ok body s = _
    rw [consumeLeb_eq]
    rcases hr : fwStrLebGetu mem body 32 with _ | _ | ⟨v, body'⟩ <;>
      simp [ConsumeFn.next, hr, LebRead.next]
  · change fwInstrConsumeLeb mem 64 .ok body s = _
    rw [consumeLeb_eq]
    rcases hr : fwStrLebGetu mem body 64 with _ | _ | ⟨v, body'⟩ <;>
      simp [ConsumeFn.next, hr, LebRead.next]
  · change fwInstrConsumeBrtbl mem body s = _
    rw [fwInstrConsumeBrtbl, ConsumeFn.next]
    cases hr : fwStrLebGetu mem body 32 with
    | hang => rfl
    | strErr => rfl
    | got v body₁ =>
      rcases hl : fwInstrConsumeBrtblLoop mem v.toUInt32.toNat body₁ with _ | ⟨_ | _, body₂⟩
      · simp only [hl, halt_apply]
      · simp only [hl, pure_apply]
      · simp only [hl, consumeLeb_eq]
        rcases fwStrLebGetu mem body₂ 32 with _ | _ | ⟨v', body'⟩ <;> rfl

/-- `block` and `loop` open an entry, which stays without a start when the block type is
malformed. -/
theorem consume_block :
    ConsumeFn.block.consume mem code body s =
      ⟨[], match fwStrLebGetu mem body 32 with
        | .hang => .error .hang
        | .strErr => .ok ((.err, body), s.openBlk)
        | .got _ body' => .ok ((.ok, body'), s.openBlk.setStart s.fresh body'.pos code)⟩ := by
  change fwInstrConsumeBlock mem code body s = _
  simp only [fwInstrConsumeBlock, fwInstrConsumeRtype, get_bind_apply, set_bind_apply]
  cases hr : fwStrLebGetu mem body 32 with
  | hang => rw [bind_of_error (by rw [consumeLeb_eq, hr]), consumeLeb_eq]
  | strErr =>
    rw [bind_of_ok (by rw [consumeLeb_eq, hr]), consumeLeb_eq]
    rfl
  | got v body' =>
    rw [bind_of_ok (by rw [consumeLeb_eq, hr]), consumeLeb_eq]
    rfl

/-- An `if` is a block that waits for its `else` too, unless its block type is malformed. It cannot
wait once `iftmp` is poisoned. -/
theorem consume_if :
    ConsumeFn.if_.consume mem code body s =
      ⟨[], match fwStrLebGetu mem body 32 with
        | .hang => .error .hang
        | .strErr => .ok ((.err, body), s.openBlk)
        | .got _ body' =>
          if s.stray.isSome then .error (.fault .badPtr)
          else .ok ((.ok, body'), (s.openBlk.setStart s.fresh body'.pos code).pushIf s.fresh)⟩ := by
  have hb : ConsumeFn.block.consume mem code body s = _ := consume_block
  change fwInstrConsumeIf mem code body s = _
  rw [fwInstrConsumeIf]
  rcases hr : fwStrLebGetu mem body 32 with _ | _ | ⟨v, body'⟩ <;> rw [hr] at hb
  · rw [bind_of_error (by rw [show fwInstrConsumeBlock mem code body s = _ from hb])]
    rw [show fwInstrConsumeBlock mem code body s = _ from hb]
  · rw [bind_eq (show fwInstrConsumeBlock mem code body s = _ from hb)]
    rfl
  · rw [bind_eq (show fwInstrConsumeBlock mem code body s = _ from hb)]
    simp only [get_bind_apply, FuncBlks.setStart, FuncBlks.setEntry, FuncBlks.openBlk,
      List.getLast?_concat]
    rcases s.stray with _ | pos <;> rfl

/-- An `else` goes to the last entry of `iftmp`, and the first one that finds none into the function
itself. -/
theorem consume_else :
    ConsumeFn.else_.consume mem code body s =
      ⟨[], match s.iftmp.getLast? with
        | none =>
          if s.stray.isSome then .error (.fault .badPtr)
          else .ok ((.ok, body), s.goAstray body.pos)
        | some blk => .ok ((.ok, body), s.popIf blk body.pos)⟩ := by
  change fwInstrConsumeElse body s = _
  simp only [fwInstrConsumeElse, get_bind_apply]
  rcases s.iftmp.getLast? with _ | blk
  · rcases s.stray with _ | pos <;> rfl
  · rfl

/-- An `end` closes the last open block, or else ends the function. It cannot close a block behind
an `else` that went astray. -/
theorem consume_end :
    ConsumeFn.end_.consume mem code body s =
      ⟨[], match s.blktmp.getLast? with
        | none => .ok ((if body.pos ≠ body.last then .err else .ok, body), s)
        | some blk =>
          if s.stray.isSome then .error (.fault .overBytes)
          else .ok ((.ok, body), s.closeBlk blk body.pos)⟩ := by
  change fwInstrConsumeEnd body s = _
  simp only [fwInstrConsumeEnd, get_bind_apply]
  cases s.blktmp.getLast? with
  | none =>
    by_cases h : body.pos ≠ body.last
    · simp only [if_pos h]
      rfl
    · simp only [if_neg h]
      rfl
  | some blk => rcases s.stray with _ | pos <;> rfl

/-- Handlers log nothing; the walk logs the fetch. -/
theorem consume_log (fn : ConsumeFn) : (fn.consume mem code body s).log = [] := by
  cases fn with
  | none_ => rfl
  | c32 | c64 | brtbl => rw [consume_plain (by decide)]
  | block => rw [consume_block]
  | if_ => rw [consume_if]
  | else_ => rw [consume_else]
  | end_ => rw [consume_end]

/-- Handlers have no bound of their own, so none is reached. -/
theorem consume_ne_fuel {fn : ConsumeFn} : (fn.consume mem code body s).res ≠ .error .fuel := by
  cases fn with
  | none_ | c32 | c64 | brtbl =>
    rw [consume_plain (by decide)]
    split <;> simp
  | block =>
    rw [consume_block]
    rcases fwStrLebGetu mem body 32 with _ | _ | ⟨v, body'⟩ <;> simp
  | if_ =>
    rw [consume_if]
    rcases fwStrLebGetu mem body 32 with _ | _ | ⟨v, body'⟩ <;> rcases s.stray with _ | _ <;> simp
  | else_ =>
    rw [consume_else]
    rcases s.iftmp.getLast? with _ | blk <;> rcases s.stray with _ | _ <;> simp
  | end_ =>
    rw [consume_end]
    rcases s.blktmp.getLast? with _ | blk <;> rcases s.stray with _ | _ <;> simp

/-- What a handler that returns has done to the block lists. -/
inductive Consumed (mem : Mem) (code : UInt8) (body : FwStr) (s : FuncBlks) :
    ConsumeFn → FwStr → FuncBlks → Prop
  /-- straight-line instructions leave them alone -/
  | plain {fn : ConsumeFn} {body' : FwStr} (hfn : fn.Plain) : Consumed mem code body s fn body' s
  /-- without a block type the entry has no start and the `if` is not pending -/
  | malformed {fn : ConsumeFn} (hfn : fn = .block ∨ fn = .if_)
      (hr : fwStrLebGetu mem body 32 = .strErr) : Consumed mem code body s fn body s.openBlk
  /-- a `block` or `loop` is opened -/
  | block {v : UInt64} {body' : FwStr} (hr : fwStrLebGetu mem body 32 = .got v body') :
      Consumed mem code body s .block body' (s.openBlk.setStart s.fresh body'.pos code)
  /-- an `if` is opened -/
  | if_ {v : UInt64} {body' : FwStr} (hr : fwStrLebGetu mem body 32 = .got v body')
      (hstray : s.stray = none) : Consumed mem code body s .if_ body'
        ((s.openBlk.setStart s.fresh body'.pos code).pushIf s.fresh)
  /-- an `else` goes to the last pending `if` -/
  | else_ {blk : ℕ} (hblk : s.iftmp.getLast? = some blk) :
      Consumed mem code body s .else_ body (s.popIf blk body.pos)
  /-- an `else` finds no pending `if` -/
  | astray (hblk : s.iftmp.getLast? = none) (hstray : s.stray = none) :
      Consumed mem code body s .else_ body (s.goAstray body.pos)
  /-- the last open block is closed -/
  | endBlk {blk : ℕ} (hblk : s.blktmp.getLast? = some blk) (hstray : s.stray = none) :
      Consumed mem code body s .end_ body (s.closeBlk blk body.pos)
  /-- the function ends -/
  | endFunc (hblk : s.blktmp.getLast? = none) : Consumed mem code body s .end_ body s

/-- Inversion: a handler that returned, its cursor and what it has done. There is one case for each
kind of handler, and the hypotheses of a case are the reasons why the handler did not halt. -/
theorem consume_cases {fn : ConsumeFn} {status : Status}
    (h : (fn.consume mem code body s).res = .ok ((status, body'), s')) :
    fn.next mem body = some body' ∧ Consumed mem code body s fn body' s' := by
  cases fn with
  | none_ | c32 | c64 | brtbl =>
    rw [consume_plain (by decide)] at h
    split at h
    · cases h
    · next hn =>
      obtain ⟨hx, rfl⟩ := Prod.mk.inj (Except.ok.inj h)
      obtain ⟨-, rfl⟩ := Prod.mk.inj hx
      exact ⟨hn, .plain (by decide)⟩
  | block =>
    rw [consume_block] at h
    rcases hr : fwStrLebGetu mem body 32 with _ | _ | ⟨v, body₁⟩ <;> rw [hr] at h
    · cases h
    · obtain ⟨hx, rfl⟩ := Prod.mk.inj (Except.ok.inj h)
      obtain ⟨-, rfl⟩ := Prod.mk.inj hx
      exact ⟨by rw [ConsumeFn.next, hr]; rfl, .malformed (.inl rfl) hr⟩
    · obtain ⟨hx, rfl⟩ := Prod.mk.inj (Except.ok.inj h)
      obtain ⟨-, rfl⟩ := Prod.mk.inj hx
      exact ⟨by rw [ConsumeFn.next, hr]; rfl, .block hr⟩
  | if_ =>
    rw [consume_if] at h
    rcases hr : fwStrLebGetu mem body 32 with _ | _ | ⟨v, body₁⟩ <;> rw [hr] at h
    · cases h
    · obtain ⟨hx, rfl⟩ := Prod.mk.inj (Except.ok.inj h)
      obtain ⟨-, rfl⟩ := Prod.mk.inj hx
      exact ⟨by rw [ConsumeFn.next, hr]; rfl, .malformed (.inr rfl) hr⟩
    · rcases hs : s.stray with _ | pos <;> rw [hs] at h
      · obtain ⟨hx, rfl⟩ := Prod.mk.inj (Except.ok.inj h)
        obtain ⟨-, rfl⟩ := Prod.mk.inj hx
        exact ⟨by rw [ConsumeFn.next, hr]; rfl, .if_ hr hs⟩
      · cases h
  | else_ =>
    rw [consume_else] at h
    rcases hl : s.iftmp.getLast? with _ | blk <;> rw [hl] at h
    · rcases hs : s.stray with _ | pos <;> rw [hs] at h
      · obtain ⟨hx, rfl⟩ := Prod.mk.inj (Except.ok.inj h)
        obtain ⟨-, rfl⟩ := Prod.mk.inj hx
        exact ⟨rfl, .astray hl hs⟩
      · cases h
    · obtain ⟨hx, rfl⟩ := Prod.mk.inj (Except.ok.inj h)
      obtain ⟨-, rfl⟩ := Prod.mk.inj hx
      exact ⟨rfl, .else_ hl⟩
  | end_ =>
    rw [consume_end] at h
    rcases hl : s.blktmp.getLast? with _ | blk <;> rw [hl] at h
    · obtain ⟨hx, rfl⟩ := Prod.mk.inj (Except.ok.inj h)
      obtain ⟨-, rfl⟩ := Prod.mk.inj hx
      exact ⟨rfl, .endFunc hl⟩
    · rcases hs : s.stray with _ | pos <;> rw [hs] at h
      · obtain ⟨hx, rfl⟩ := Prod.mk.inj (Except.ok.inj h)
        obtain ⟨-, rfl⟩ := Prod.mk.inj hx
        exact ⟨rfl, .endBlk hl hs⟩
      · cases h

end Handlers

/-! ## One round

A fetch, and the handler of the row. An opcode without a row is passed over, and a row without a
handler stops the walk. -/

section Rounds

variable {mem : Mem} {n : ℕ} {body : FwStr} {s : FuncBlks}

/-- One round of the walk: the handler of the opcode at the cursor, if there is one. -/
def walkStep (mem : Mem) (body : FwStr) : Walk FwStr :=
  match fwGetInstr (mem body.pos) with
  | none => pure ⟨body.pos + 1, body.last⟩
  | some instr =>
    match instr.consume with
    | none => halt (.fault .nullHandler)
    | some fn => do
      let (_, next) ← fn.consume mem instr.code ⟨body.pos + 1, body.last⟩
      pure next

/-- The cursor after one round. An opcode without a row moves it by one byte, and one with a row
over what its handler reads. -/
def instrNext (mem : Mem) (body : FwStr) : Option FwStr :=
  match fwGetInstr (mem body.pos) with
  | none => some ⟨body.pos + 1, body.last⟩
  | some instr => instr.consume.bind fun fn => fn.next mem ⟨body.pos + 1, body.last⟩

/-- The cursor after an instruction with a row is that of its handler. -/
theorem instrNext_of_row {p last : ℕ} {instr : FwInstr} {fn : ConsumeFn}
    (hi : fwGetInstr (mem p) = some instr) (hc : instr.consume = some fn) :
    instrNext mem ⟨p, last⟩ = fn.next mem ⟨p + 1, last⟩ := by
  simp only [instrNext, hi, hc, Option.bind_some]

theorem walkStep_log : (walkStep mem body s).log = [] := by
  rw [walkStep]
  cases fwGetInstr (mem body.pos) with
  | none => rfl
  | some instr =>
    cases hc : instr.consume with
    | none =>
      simp only [hc]
      rfl
    | some fn =>
      simp only [hc]
      rcases hr : (fn.consume mem instr.code ⟨body.pos + 1, body.last⟩ s).res with e | ⟨⟨st, b⟩, s'⟩
      · rw [bind_of_error hr, consume_log]
      · rw [bind_of_ok hr, consume_log]
        rfl

/-- A round that returned over an opcode with a row was a run of its handler. -/
theorem walkStep_eq_ok {body' : FwStr} {s' : FuncBlks} {instr : FwInstr}
    (hi : fwGetInstr (mem body.pos) = some instr)
    (h : (walkStep mem body s).res = .ok (body', s')) :
    ∃ fn status, instr.consume = some fn ∧
      (fn.consume mem instr.code ⟨body.pos + 1, body.last⟩ s).res = .ok ((status, body'), s') := by
  rw [walkStep] at h
  cases hc : instr.consume with
  | none => simp [hi, hc] at h
  | some fn =>
    simp only [hi, hc] at h
    obtain ⟨⟨status, b⟩, s₁, hm, hf, -⟩ := bind_eq_ok h
    simp only [pure_apply, Except.ok.injEq, Prod.mk.injEq] at hf
    obtain ⟨rfl, rfl⟩ := hf
    exact ⟨fn, status, rfl, hm⟩

theorem walkStep_next {body' : FwStr} {s' : FuncBlks}
    (h : (walkStep mem body s).res = .ok (body', s')) : instrNext mem body = some body' := by
  rw [instrNext]
  cases hi : fwGetInstr (mem body.pos) with
  | none =>
    rw [walkStep] at h
    simp only [hi, pure_apply, Except.ok.injEq, Prod.mk.injEq] at h
    rw [← h.1]
  | some instr =>
    obtain ⟨fn, status, hc, hm⟩ := walkStep_eq_ok hi h
    simp only [hc, Option.bind_some, (consume_cases hm).1]

/-- A round moves the cursor, and leaves the end of the body alone. -/
theorem instrNext_lt {body' : FwStr} (h : instrNext mem body = some body') :
    body.pos < body'.pos ∧ body'.last = body.last := by
  rw [instrNext] at h
  cases hi : fwGetInstr (mem body.pos) with
  | none =>
    simp only [hi, Option.some.injEq] at h
    rw [← h]
    exact ⟨Nat.lt_succ_self _, rfl⟩
  | some instr =>
    simp only [hi] at h
    obtain ⟨fn, -, hn⟩ := Option.bind_eq_some_iff.mp h
    obtain ⟨hle, hlast⟩ := next_le hn
    exact ⟨hle, hlast⟩

theorem loop_of_le (h : body.last ≤ body.pos) :
    fwModuleValidateLoop mem (n + 1) body s = ⟨[], .ok (some body, s)⟩ := by
  rw [fwModuleValidateLoop, if_neg (by omega)]
  rfl

/-- The walk, one round and the rest: the fetch is logged first, also when the round does not
return. -/
theorem loop_of_lt (h : body.pos < body.last) :
    fwModuleValidateLoop mem (n + 1) body =
      emit body.pos >>= fun _ => walkStep mem body >>= fwModuleValidateLoop mem n := by
  rw [fwModuleValidateLoop, if_pos h, fwStrGet8_of_lt h]
  simp only
  congr 1
  funext _
  rw [walkStep]
  cases hi : fwGetInstr (mem body.pos) with
  | none => rw [pure_bind]
  | some instr =>
    cases hc : instr.consume with
    | none => simp only [hc, halt_bind]
    | some fn => simp only [hc, bind_assoc, pure_bind]

/-- The walk after a round that returned goes on from there. -/
theorem loop_step {body' : FwStr} {s' : FuncBlks} (h : body.pos < body.last)
    (hs : (walkStep mem body s).res = .ok (body', s')) :
    fwModuleValidateLoop mem (n + 1) body s =
      ⟨body.pos :: (fwModuleValidateLoop mem n body' s').log,
        (fwModuleValidateLoop mem n body' s').res⟩ := by
  rw [loop_of_lt h, emit_bind_apply, bind_of_ok hs, walkStep_log]
  rfl

/-- The walk after a round that did not return does not return either. -/
theorem loop_step_error {e : Halt} (h : body.pos < body.last)
    (hs : (walkStep mem body s).res = .error e) :
    fwModuleValidateLoop mem (n + 1) body s = ⟨[body.pos], .error e⟩ := by
  rw [loop_of_lt h, emit_bind_apply, bind_of_error hs, walkStep_log]

/-! ## Whole walks

The bound on the rounds is above the number of bytes, and a round takes one at least. -/

/-- No round runs out of rounds, as it is one. -/
theorem walkStep_ne_fuel : (walkStep mem body s).res ≠ .error .fuel := by
  intro h
  rw [walkStep] at h
  cases hi : fwGetInstr (mem body.pos) with
  | none =>
    rw [hi] at h
    cases h
  | some instr =>
    cases hc : instr.consume with
    | none => simp [hi, hc] at h
    | some fn =>
      simp only [hi, hc] at h
      rcases hm : (fn.consume mem instr.code ⟨body.pos + 1, body.last⟩ s).res with e | ⟨⟨st, b⟩, s'⟩
      · rw [bind_of_error hm, Except.error.injEq] at h
        exact consume_ne_fuel (h ▸ hm)
      · rw [bind_of_ok hm] at h
        cases h

/-- A walk with more rounds than bytes does not run out of rounds, by induction on the rounds: each
of them takes a byte at least. So the bound in the model of the loop is never what stops it. -/
theorem walk_ne_fuel :
    ∀ {n : ℕ} {body : FwStr} {s : FuncBlks}, body.last - body.pos < n →
      (fwModuleValidateLoop mem n body s).res ≠ .error .fuel
  | 0, _, _, hn, _ => by omega
  | n + 1, body, s, hn, h => by
    rcases Nat.lt_or_ge body.pos body.last with hlt | hge
    · rcases hs : (walkStep mem body s).res with e | ⟨body', s'⟩
      · rw [loop_step_error hlt hs, Except.error.injEq] at h
        exact walkStep_ne_fuel (h ▸ hs)
      · rw [loop_step hlt hs] at h
        obtain ⟨hpos, hlast⟩ := instrNext_lt (walkStep_next hs)
        exact walk_ne_fuel (by omega) h
    · rw [loop_of_le hge] at h
      cases h

/-- A function whose walk returns is validated, whatever the walk met and wherever it ended. -/
theorem validateInst_of_walk {s' : FuncBlks} {r : Option FwStr}
    (h : (fwModuleValidateWalk mem body s).res = .ok (r, s')) :
    (fwModuleValidateInst mem body s).res = .ok (.ok, s') := by
  rw [fwModuleValidateInst]
  rw [bind_of_ok h]
  cases r with
  | none => rfl
  | some next =>
    by_cases hpos : next.pos ≠ body.last
    · simp only [if_pos hpos, pure_apply]
    · simp only [if_neg hpos, pure_apply]

/-- A function whose walk does not return is not validated either. -/
theorem validateInst_of_walk_error {h : Halt}
    (hw : (fwModuleValidateWalk mem body s).res = .error h) :
    (fwModuleValidateInst mem body s).res = .error h := by
  rw [fwModuleValidateInst]
  rw [bind_of_error hw]

/-- A function that is validated was walked, and has the block lists of the walk. -/
theorem walk_of_validateInst {s' : FuncBlks} {status : Status}
    (h : (fwModuleValidateInst mem body s).res = .ok (status, s')) :
    ∃ r, (fwModuleValidateWalk mem body s).res = .ok (r, s') := by
  rcases hw : (fwModuleValidateWalk mem body s).res with e | ⟨r, s₁⟩
  · rw [validateInst_of_walk_error hw] at h
    cases h
  · rw [validateInst_of_walk hw] at h
    obtain ⟨-, rfl⟩ := Prod.mk.inj (Except.ok.inj h)
    exact ⟨r, rfl⟩

/-- Validation fetches where its walk does, and nowhere else. -/
theorem validateInst_log :
    (fwModuleValidateInst mem body s).log = (fwModuleValidateWalk mem body s).log := by
  rw [fwModuleValidateInst]
  rcases hw : (fwModuleValidateWalk mem body s).res with e | ⟨r, s₁⟩
  · rw [bind_of_error hw]
  · rw [bind_of_ok hw]
    cases r with
    | none => exact List.append_nil _
    | some next =>
      dsimp only
      split <;> exact List.append_nil _

end Rounds

/-! ## Walks round by round

A walk as a list of rounds, each from one position to the next. A fact about whole walks is proved
by induction on this list. -/

/-- The walk goes from `p` to `q` in rounds that all return, and fetches at the positions `l`. It is
the run of the validator as a relation, by induction on which every invariant of whole walks is
proved. -/
inductive WalksTo (mem : Mem) (last : ℕ) : ℕ → FuncBlks → List ℕ → ℕ → FuncBlks → Prop
  | refl (p : ℕ) (s : FuncBlks) : WalksTo mem last p s [] p s
  | step {p q r : ℕ} {s s₁ s₂ : FuncBlks} {l : List ℕ} (hlt : p < last)
      (hs : (walkStep mem ⟨p, last⟩ s).res = .ok (⟨q, last⟩, s₁))
      (h : WalksTo mem last q s₁ l r s₂) : WalksTo mem last p s (p :: l) r s₂

/-- A walk that returns has gone to the end of the body, or behind it: the last immediate may be
read past the end. -/
theorem walksTo_of_loop {mem : Mem} :
    ∀ {n : ℕ} {body : FwStr} {s s' : FuncBlks} {r : Option FwStr},
      (fwModuleValidateLoop mem n body s).res = .ok (r, s') →
      ∃ q, body.last ≤ q ∧
        WalksTo mem body.last body.pos s (fwModuleValidateLoop mem n body s).log q s'
  | 0, _, _, _, _, h => by cases h
  | n + 1, body, s, s', r, h => by
    rcases Nat.lt_or_ge body.pos body.last with hlt | hge
    · rcases hs : (walkStep mem body s).res with e | ⟨⟨pos, last⟩, s₁⟩
      · rw [loop_step_error hlt hs] at h
        cases h
      · obtain rfl : last = body.last := (instrNext_lt (walkStep_next hs)).2
        rw [loop_step hlt hs] at h ⊢
        obtain ⟨q, hq, hwalk⟩ := walksTo_of_loop h
        exact ⟨q, hq, .step hlt hs hwalk⟩
    · rw [loop_of_le hge] at h ⊢
      obtain ⟨-, rfl⟩ := Prod.mk.inj (Except.ok.inj h)
      exact ⟨body.pos, hge, .refl _ _⟩

/-- Positions the walk goes through: those it fetches at, and all from the end on. -/
def Visited (l : List ℕ) (last p : ℕ) : Prop := p ∈ l ∨ last ≤ p

namespace WalksTo

variable {mem : Mem} {last p q r : ℕ} {s s₁ s₂ : FuncBlks} {l l' : List ℕ}

/-- One round. -/
theorem single (hlt : p < last) (hs : (walkStep mem ⟨p, last⟩ s).res = .ok (⟨q, last⟩, s₁)) :
    WalksTo mem last p s [p] q s₁ :=
  .step hlt hs (.refl q s₁)

theorem trans (h : WalksTo mem last p s l q s₁) (h' : WalksTo mem last q s₁ l' r s₂) :
    WalksTo mem last p s (l ++ l') r s₂ := by
  induction h with
  | refl => exact h'
  | step hlt hs _ ih => exact .step hlt hs (ih h')

/-- Every round takes a byte at least, so there are not more rounds than bytes. -/
theorem length_le (h : WalksTo mem last p s l q s₁) : p + l.length ≤ q := by
  induction h with
  | refl => exact le_refl _
  | step hlt hs _ ih =>
    have hpos := (instrNext_lt (walkStep_next hs)).1
    simp only [List.length_cons] at hpos ⊢
    omega

/-- The walk visits where it starts, unless that is at the end. -/
theorem start (h : WalksTo mem last p s l q s₁) (hq : last ≤ q) : Visited l last p := by
  cases h with
  | refl => exact .inr hq
  | step => exact .inl (List.mem_cons_self ..)

/-- Wherever the walk fetches an opcode, it goes on to the next one, which is fetched too or lies
behind the end. -/
theorem next (h : WalksTo mem last p s l q s₁) (hq : last ≤ q) :
    ∀ p' ∈ l, p' < last ∧ ∃ q', instrNext mem ⟨p', last⟩ = some ⟨q', last⟩ ∧
      Visited l last q' := by
  induction h with
  | refl => exact fun p' hp' => absurd hp' List.not_mem_nil
  | step hlt hs hrest ih =>
    -- the first position leads to the second, the others are the rest of the walk's
    refine List.forall_mem_cons.mpr ⟨⟨hlt, _, walkStep_next hs, ?_⟩, fun p' hp' => ?_⟩
    · exact (hrest.start hq).imp_left (List.mem_cons_of_mem _)
    · obtain ⟨hlt', q', hq', hv⟩ := ih hq p' hp'
      exact ⟨hlt', q', hq', hv.imp_left (List.mem_cons_of_mem _)⟩

/-- The loop goes through these rounds first, and then does the rest. -/
theorem loop_append (h : WalksTo mem last p s l q s₁) (m : ℕ) :
    fwModuleValidateLoop mem (l.length + m) ⟨p, last⟩ s =
      ⟨l ++ (fwModuleValidateLoop mem m ⟨q, last⟩ s₁).log,
        (fwModuleValidateLoop mem m ⟨q, last⟩ s₁).res⟩ := by
  induction h with
  | refl => rw [List.length_nil, Nat.zero_add, List.nil_append]
  | @step p q r s s₁ s₂ l hlt hs _ ih =>
    rw [show (p :: l).length + m = l.length + m + 1 by rw [List.length_cons]; omega,
      loop_step hlt hs, ih]
    rfl

/-- The whole walk, when the rounds lead to the last byte. -/
theorem walk_eq (h : WalksTo mem last p s l last s₁) :
    fwModuleValidateWalk mem ⟨p, last⟩ s = ⟨l, .ok (some ⟨last, last⟩, s₁)⟩ := by
  have hlen := h.length_le
  obtain ⟨m, hm⟩ : ∃ m, last - p + 1 = l.length + (m + 1) := ⟨last - p - l.length, by omega⟩
  rw [fwModuleValidateWalk, hm, h.loop_append, loop_of_le (le_refl _), List.append_nil]

end WalksTo

section Rows

variable {mem : Mem} {last p q : ℕ} {s s' : FuncBlks} {instr : FwInstr} {fn : ConsumeFn}

/-- A round is what the handler of the row does, behind the fetch. -/
theorem walkStep_of_row (instr : FwInstr) (status : Status) {body' : FwStr}
    (hi : fwGetInstr (mem p) = some instr)
    (hc : instr.consume = some fn)
    (h : (fn.consume mem instr.code ⟨p + 1, last⟩ s).res = .ok ((status, body'), s')) :
    (walkStep mem ⟨p, last⟩ s).res = .ok (body', s') := by
  rw [walkStep]
  simp only [hi, hc]
  rw [bind_of_ok h]
  rfl

/-- A round over a straight-line instruction moves the cursor and leaves the lists alone. -/
theorem walkStep_plain (hi : fwGetInstr (mem p) = some instr) (hc : instr.consume = some fn)
    (hfn : fn.Plain) (hn : fn.next mem ⟨p + 1, last⟩ = some ⟨q, last⟩) :
    (walkStep mem ⟨p, last⟩ s).res = .ok (⟨q, last⟩, s) :=
  walkStep_of_row _ .ok hi hc (by rw [consume_plain hfn, hn])

/-- A round over an `else` with a pending `if`, which is the last one. -/
theorem walkStep_else (last : ℕ) {blk : ℕ} (hop : mem p = fwInstrElse)
    (hblk : s.iftmp.getLast? = some blk) :
    (walkStep mem ⟨p, last⟩ s).res = .ok (⟨p + 1, last⟩, s.popIf blk (p + 1)) :=
  walkStep_of_row ⟨0x05, some .else_, some .else_⟩ .ok (by rw [hop]; rfl) rfl
    (by rw [consume_else, hblk])

/-- A round over the `end` of a block, which is the last open one. -/
theorem walkStep_end (last : ℕ) {blk : ℕ} (hop : mem p = fwInstrEnd)
    (hblk : s.blktmp.getLast? = some blk) (hstray : s.stray = none) :
    (walkStep mem ⟨p, last⟩ s).res = .ok (⟨p + 1, last⟩, s.closeBlk blk (p + 1)) :=
  walkStep_of_row ⟨0x0b, some .end_, some .end_⟩ .ok (by rw [hop]; rfl) rfl
    (by rw [consume_end, hblk, hstray]; rfl)

/-- A round over the `end` of the function, with no block open. -/
theorem walkStep_end_nil (last : ℕ) (hop : mem p = fwInstrEnd) (hblk : s.blktmp = []) :
    (walkStep mem ⟨p, last⟩ s).res = .ok (⟨p + 1, last⟩, s) :=
  walkStep_of_row ⟨0x0b, some .end_, some .end_⟩ _ (by rw [hop]; rfl) rfl
    (by rw [consume_end, hblk]; rfl)

end Rows

end FastWasm
