import FastWasm.Format
import FastWasm.Scan

/-!
# The walk against the binary grammar

Sequences of instructions, each written as the binary format has it. The walk decodes such a
sequence instruction by instruction if and only if each instruction is one that its handler reads as
it is written and the `else`s are such that no handler stops the walk (`walk_decodes_iff`).

An `else` does not have to belong to an `if` for that. The handler of an `else` takes the last `if`
that is still pending, and when there is none it writes into the function instead and the walk goes
on. From then on nothing may touch the lists that are damaged: no `if`, no other `else`, no `end` of
a block (`Undisturbed`).

The condition on the `else`s is a function of the sequence alone (`ElsesPending`), computed from the
opcodes with two counters. The proof keeps the counters and the lengths of the two block lists in
step: `ListLens.after` says what an opcode does to the lengths, `round_iff` that a round of the walk
does just that over an instruction that is read as it is written, and `loop_decodes_iff` puts the
rounds together, from any state in which lists of these lengths can be.
-/

namespace FastWasm

open Logged

/-! ## Sequences and their `else`s

What an opcode does to the two lists can be told from the lengths of the lists alone, so the
condition on the `else`s is evaluated with two numbers. -/

/-- The first bytes of the instructions of a sequence that lies at `p`. These are the positions at
which a decoder of the format looks for an opcode. -/
def firstBytes : ℕ → List WasmInstr → List ℕ
  | _, [] => []
  | p, i :: is => p :: firstBytes (p + 1 + i.imm.length) is

/-- The number of pending `if`s after an opcode. An `if` adds one, an `else` takes one, and the
`end` of an `if` without an `else` takes none. -/
def pendingAfter (ifs : ℕ) (op : UInt8) : ℕ :=
  if op = fwInstrIf then ifs + 1 else if op = fwInstrElse then ifs - 1 else ifs

/-- The number of open blocks after an opcode, as the validator counts them. The `end` behind the
last of them, that of the function, takes none. -/
def opensAfter (opens : ℕ) (op : UInt8) : ℕ :=
  if op = fwInstrBlock ∨ op = fwInstrLoop ∨ op = fwInstrIf then opens + 1
  else if op = fwInstrEnd then opens - 1 else opens

/-- With `opens` open blocks, no `if`, no `else` and no `end` of an open block follows. -/
def Undisturbed : ℕ → List WasmInstr → Prop
  | _, [] => True
  | opens, i :: is =>
    i.op ≠ fwInstrIf ∧ i.op ≠ fwInstrElse ∧ (i.op = fwInstrEnd → opens = 0) ∧
      Undisturbed (opensAfter opens i.op) is

/-- With `ifs` pending `if`s and `opens` open blocks, every `else` comes with a pending `if`, save
one behind which nothing touches the lists. It does not have to be the `if` of the format that the
`else` takes. -/
def ElsesPending : ℕ → ℕ → List WasmInstr → Prop
  | _, _, [] => True
  | ifs, opens, i :: is =>
    if i.op = fwInstrElse ∧ ifs = 0 then Undisturbed opens is
    else ElsesPending (pendingAfter ifs i.op) (opensAfter opens i.op) is

instance decidableUndisturbed : (opens : ℕ) → (is : List WasmInstr) →
    Decidable (Undisturbed opens is)
  | _, [] => isTrue trivial
  | opens, i :: is =>
    have := decidableUndisturbed (opensAfter opens i.op) is
    inferInstanceAs (Decidable (_ ∧ _ ∧ _ ∧ _))

instance decidableElsesPending : (ifs opens : ℕ) → (is : List WasmInstr) →
    Decidable (ElsesPending ifs opens is)
  | _, _, [] => isTrue trivial
  | ifs, opens, i :: is =>
    have := decidableUndisturbed opens is
    have := decidableElsesPending (pendingAfter ifs i.op) (opensAfter opens i.op) is
    inferInstanceAs (Decidable (if i.op = fwInstrElse ∧ ifs = 0 then Undisturbed opens is
      else ElsesPending (pendingAfter ifs i.op) (opensAfter opens i.op) is))

/-- The numbers behind an opcode whose immediates were read, or the reason why its handler stops the
walk. -/
def ListLens.after (k : ListLens) (op : UInt8) : Except Halt ListLens :=
  if op = fwInstrBlock ∨ op = fwInstrLoop then .ok k.opened
  else if op = fwInstrIf then k.if_
  else if op = fwInstrElse then k.else_
  else if op = fwInstrEnd then k.end_
  else .ok k

/-- What the lists of these lengths need of the rest of a sequence: that no handler in it runs into
a link that is damaged. -/
def ListLens.Bears (k : ListLens) (is : List WasmInstr) : Prop :=
  if k.stray then Undisturbed k.opens is else ElsesPending k.ifs k.opens is

/-- Lists of these lengths can be: nothing is pending behind an `else` that went astray, since that
`else` found nothing pending. -/
def ListLens.Sound (k : ListLens) : Prop := k.stray → k.ifs = 0

namespace ListLens

variable {k k' : ListLens} {op : UInt8} {i : WasmInstr} {is : List WasmInstr}

theorem Sound.after (h : k.Sound) (hk : k.after op = .ok k') : k'.Sound := by
  unfold ListLens.after if_ else_ end_ at hk
  split_ifs at hk <;> simp only [Except.ok.injEq] at hk <;> subst hk <;>
    simp_all [Sound, opened]

/-- The rest of a sequence is borne if and only if its first instruction is, and then what is behind
it. -/
theorem bears_cons (h : k.Sound) :
    k.Bears (i :: is) ↔ ∃ k', k.after i.op = .ok k' ∧ k'.Bears is := by
  obtain ⟨ifs, opens, stray⟩ := k
  obtain ⟨op, imm⟩ := i
  have hkinds : (op = fwInstrBlock ∨ op = fwInstrLoop ∨ op = fwInstrIf ∨ op = fwInstrElse ∨
      op = fwInstrEnd) ∨ (op ≠ fwInstrBlock ∧ op ≠ fwInstrLoop ∧ op ≠ fwInstrIf ∧
        op ≠ fwInstrElse ∧ op ≠ fwInstrEnd) := by
    tauto
  unfold Bears ListLens.after if_ else_ end_ opened
  cases stray with
  | true =>
    obtain rfl : ifs = 0 := h rfl
    rw [if_pos rfl, Undisturbed]
    rcases hkinds with (rfl | rfl | rfl | rfl | rfl) | hop
    case inl.inr.inr.inr.inr =>
      by_cases hopens : opens = 0 <;>
        simp [opensAfter, fwInstrBlock, fwInstrLoop, fwInstrIf, fwInstrElse, fwInstrEnd, hopens]
    all_goals simp_all [opensAfter, fwInstrBlock, fwInstrLoop, fwInstrIf, fwInstrElse, fwInstrEnd]
  | false =>
    rw [if_neg Bool.false_ne_true, ElsesPending]
    rcases hkinds with (rfl | rfl | rfl | rfl | rfl) | hop
    case inl.inr.inr.inr.inl =>
      rcases Nat.eq_zero_or_pos ifs with rfl | hifs
      · simp [fwInstrBlock, fwInstrLoop, fwInstrIf, fwInstrElse]
      · simp [opensAfter, pendingAfter, fwInstrBlock, fwInstrLoop, fwInstrIf, fwInstrElse,
          fwInstrEnd, hifs, hifs.ne']
    case inl.inr.inr.inr.inr =>
      by_cases hopens : opens = 0 <;>
        simp [opensAfter, pendingAfter, fwInstrBlock, fwInstrLoop, fwInstrIf, fwInstrElse,
          fwInstrEnd, hopens]
    all_goals
      simp_all [opensAfter, pendingAfter, fwInstrBlock, fwInstrLoop, fwInstrIf, fwInstrElse,
        fwInstrEnd]

end ListLens

/-! ## One instruction

The format says how many bytes an instruction has, and the handler reads as many as it does. A round
of the walk over the bytes of an instruction ends at the next one if the two agree. -/

section Instructions

variable {mem : Mem} {last p : ℕ} {s s' : FuncBlks} {i : WasmInstr}

/-- The handlers of blocks stand in the rows of their opcodes and in no others. -/
theorem row_handler {op : UInt8} {fn : ConsumeFn}
    (hc : (commonInstrHandler op).consume = some fn) :
    (fn = .block ↔ op = fwInstrBlock ∨ op = fwInstrLoop) ∧ (fn = .if_ ↔ op = fwInstrIf) ∧
      (fn = .else_ ↔ op = fwInstrElse) ∧ (fn = .end_ ↔ op = fwInstrEnd) := by
  have hall : ∀ op : UInt8, (commonInstrHandler op).consume.all (fun fn =>
      decide (fn = .block) = decide (op = fwInstrBlock ∨ op = fwInstrLoop) ∧
        decide (fn = .if_) = decide (op = fwInstrIf) ∧
        decide (fn = .else_) = decide (op = fwInstrElse) ∧
        decide (fn = .end_) = decide (op = fwInstrEnd)) = true :=
    forall_byte (by decide +kernel)
  have h := hall op
  rw [hc] at h
  simpa only [Option.all_some, decide_eq_decide, decide_eq_true_eq] using h

/-- An opcode tells what its handler does to the lists, once the block type of an `if` is read. A
block type that has no end makes the handler of an `if` return before it touches them. -/
theorem scan_after {op : UInt8} {fn : ConsumeFn} {body body' : FwStr}
    (hc : (commonInstrHandler op).consume = some fn) (hn : fn.next mem body = some body')
    (hif : fn = .if_ → ∃ v body', fwStrLebGetu mem body 32 = .got v body') (k : ListLens) :
    fn.scan mem body k = (k.after op).map fun k' => (body', k') := by
  obtain ⟨hblock, hopif, helse, hend⟩ := row_handler hc
  have hother (hne : fn ≠ .block ∧ fn ≠ .if_ ∧ fn ≠ .else_ ∧ fn ≠ .end_) : k.after op = .ok k := by
    rw [ListLens.after, if_neg (mt hblock.mpr hne.1), if_neg (mt hopif.mpr hne.2.1),
      if_neg (mt helse.mpr hne.2.2.1), if_neg (mt hend.mpr hne.2.2.2)]
  cases fn with
  | none_ | c32 | c64 | brtbl =>
    rw [scan_plain (by decide), hn, hother (by decide)]
    rfl
  | block =>
    rw [ConsumeFn.scan, ListLens.after, if_pos (hblock.mp rfl)]
    rw [ConsumeFn.next] at hn
    rcases hr : fwStrLebGetu mem body 32 with _ | _ | ⟨v, body₁⟩ <;> rw [hr] at hn
    · cases hn
    · rw [← Option.some.inj hn]
      rfl
    · rw [← Option.some.inj hn]
      rfl
  | if_ =>
    obtain ⟨v, body₁, hr⟩ := hif rfl
    rw [ConsumeFn.next, hr] at hn
    rw [ConsumeFn.scan, hr, ← Option.some.inj hn, hopif.mp rfl]
    rfl
  | else_ =>
    rw [ConsumeFn.scan, ← Option.some.inj hn, helse.mp rfl]
    rfl
  | end_ =>
    rw [ConsumeFn.scan, ← Option.some.inj hn, hend.mp rfl]
    rfl

/-- A round over an instruction that its handler reads as it is written: it goes on behind the
instruction, with the lists as the opcode leaves them. -/
theorem scanStep_after (hv : i.Valid) (hread : i.ReadAsWritten) (hm : Holds mem p (i.op :: i.imm))
    (hlast : p + 1 + i.imm.length ≤ last) (k : ListLens) :
    scanStep mem ⟨p, last⟩ k =
      (k.after i.op).map fun k' => (⟨p + 1 + i.imm.length, last⟩, k') := by
  obtain ⟨kind, hk, he⟩ := hv
  obtain ⟨hop, hm⟩ := hm
  obtain ⟨fn, hc⟩ := Option.isSome_iff_exists.mp hread.1
  have hn := (next_iff hk he hc hm hlast).mpr hread
  rw [scanStep, show fwGetInstr (mem p) = some (commonInstrHandler i.op) by
    rw [hop]; exact getInstr_of_kind hk]
  simp only [hc]
  refine scan_after hc hn ?_ k
  rintro rfl
  have hrow := row_agrees hk hc
  cases kind <;> simp only [rowAgrees, Bool.false_eq_true] at hrow
  exact ⟨_, _, getu32_of_encoding (terminated_of_blockType he) hm hlast⟩

/-- A round over an instruction goes to the next one if and only if the handler reads it as it is
written and puts up with the lists. -/
theorem round_iff {k' : ListLens} (hv : i.Valid) (hm : Holds mem p (i.op :: i.imm))
    (hlast : p + 1 + i.imm.length ≤ last) :
    (walkStep mem ⟨p, last⟩ s).res.map (fun r => (r.1, r.2.lens)) =
        .ok (⟨p + 1 + i.imm.length, last⟩, k') ↔
      i.ReadAsWritten ∧ s.lens.after i.op = .ok k' := by
  rw [walkStep_scan]
  have hok (h : i.ReadAsWritten) : scanStep mem ⟨p, last⟩ s.lens =
        .ok (⟨p + 1 + i.imm.length, last⟩, k') ↔ s.lens.after i.op = .ok k' := by
    rw [scanStep_after hv h hm hlast]
    cases s.lens.after i.op <;> simp [Except.map]
  refine ⟨fun h => ?_, fun ⟨hread, h⟩ => (hok hread).mpr h⟩
  have hread : i.ReadAsWritten := by
    obtain ⟨kind, hk, he⟩ := hv
    rw [scanStep, show fwGetInstr (mem p) = some (commonInstrHandler i.op) by
      rw [hm.1]; exact getInstr_of_kind hk] at h
    cases hc : (commonInstrHandler i.op).consume with
    | none => simp [hc] at h
    | some fn =>
      simp only [hc] at h
      exact (next_iff hk he hc hm.2 hlast).mp (scan_next h)
  exact ⟨hread, (hok hread).mp h⟩

end Instructions

/-! ## Sequences of instructions

If a round ends elsewhere the positions no longer agree, and then they never do again, since each
position that the walk fetches at is one of the list. -/

section Sequences

variable {mem : Mem} {p : ℕ} {is : List WasmInstr}

/-- A walk that fetches at the first bytes of a sequence starts where the sequence does. Where there
are instructions the first fetch says so, and where there are none the walk fetches nothing and
ends where it starts. -/
theorem pos_of_firstBytes {n pos last : ℕ} {s s' : FuncBlks}
    (hlast : p + (encodeInstrs is).length = last)
    (h : fwModuleValidateLoop mem n ⟨pos, last⟩ s =
      ⟨firstBytes p is, .ok (some ⟨last, last⟩, s')⟩) : pos = p := by
  cases n with
  | zero =>
    exact absurd (congrArg Outcome.res h) (by simp [fwModuleValidateLoop])
  | succ n =>
    rcases Nat.lt_or_ge pos last with hlt | hge
    · have hlog : ∃ l, firstBytes p is = pos :: l := by
        rcases hs : (walkStep mem ⟨pos, last⟩ s).res with e | ⟨body', s₁⟩
        · rw [loop_step_error hlt hs] at h
          cases congrArg Outcome.res h
        · rw [loop_step hlt hs, Outcome.mk.injEq] at h
          exact ⟨_, h.1.symm⟩
      obtain ⟨l, hl⟩ := hlog
      cases is with
      | nil => cases hl
      | cons i is => exact (List.cons.inj hl).1.symm
    · rw [loop_of_le hge, Outcome.mk.injEq] at h
      obtain ⟨hlog, hres⟩ := h
      obtain ⟨hbody, -⟩ := Prod.mk.inj (Except.ok.inj hres)
      cases is with
      | nil =>
        rw [encodeInstrs, List.length_nil, Nat.add_zero] at hlast
        rw [hlast]
        exact (FwStr.mk.inj (Option.some.inj hbody)).1
      | cons i is => cases hlog

/-- The walk from any state, by induction on the sequence. The step bound is above the number of
bytes that are left, and every instruction has at least one. -/
theorem loop_decodes_iff {last : ℕ} :
    ∀ {is : List WasmInstr} {p n : ℕ} {s : FuncBlks}, (∀ i ∈ is, i.Valid) → s.lens.Sound →
      Holds mem p (encodeInstrs is) → p + (encodeInstrs is).length = last → last - p < n →
      ((∃ s', fwModuleValidateLoop mem n ⟨p, last⟩ s =
          ⟨firstBytes p is, .ok (some ⟨last, last⟩, s')⟩) ↔
        (∀ i ∈ is, i.ReadAsWritten) ∧ s.lens.Bears is)
  | [], p, n, s, _, _, _, hlast, hn => by
    rw [encodeInstrs, List.length_nil, Nat.add_zero] at hlast
    subst hlast
    obtain ⟨n, rfl⟩ : ∃ n', n = n' + 1 := ⟨n - 1, by omega⟩
    refine iff_of_true ⟨s, loop_of_le (le_refl _)⟩ ⟨fun i hi => ?_, ?_⟩
    · cases hi
    · rw [ListLens.Bears]
      split <;> trivial
  | i :: is, p, n, s, hv, hsound, hm, hlast, hn => by
    rw [encodeInstrs, ← List.cons_append, holds_append] at hm
    rw [encodeInstrs, List.length_cons, List.length_append] at hlast
    obtain ⟨hmi, hms⟩ := hm
    rw [List.length_cons, Nat.add_comm _ 1, ← Nat.add_assoc] at hms
    obtain ⟨n, rfl⟩ : ∃ n', n = n' + 1 := ⟨n - 1, by omega⟩
    have hlt : p < last := by omega
    have hround (k' : ListLens) : (walkStep mem ⟨p, last⟩ s).res.map (fun r => (r.1, r.2.lens)) =
        .ok (⟨p + 1 + i.imm.length, last⟩, k') ↔
          i.ReadAsWritten ∧ s.lens.after i.op = .ok k' :=
      round_iff (hv i List.mem_cons_self) hmi (by omega)
    have ih := fun s₁ hsound₁ => loop_decodes_iff (n := n) (s := s₁)
      (fun j hj => hv j (List.mem_cons_of_mem _ hj)) hsound₁ hms
      (by omega : p + 1 + i.imm.length + (encodeInstrs is).length = last) (by omega)
    rw [List.forall_mem_cons, ListLens.bears_cons hsound]
    refine ⟨?_, ?_⟩
    · rintro ⟨s', h⟩
      rcases hs : (walkStep mem ⟨p, last⟩ s).res with e | ⟨⟨pos, last'⟩, s₁⟩
      · rw [loop_step_error hlt hs] at h
        cases congrArg Outcome.res h
      · obtain rfl : last' = last := (instrNext_lt (walkStep_next hs)).2
        rw [loop_step hlt hs, firstBytes, Outcome.mk.injEq, List.cons.injEq] at h
        have hrest : fwModuleValidateLoop mem n ⟨pos, last'⟩ s₁ = ⟨_, _⟩ := Outcome.ext h.1.2 h.2
        obtain rfl := pos_of_firstBytes (by omega) hrest
        obtain ⟨hread, hafter⟩ := (hround s₁.lens).mp (by rw [hs]; rfl)
        obtain ⟨hreads, hbears⟩ := (ih s₁ (hsound.after hafter)).mp ⟨s', hrest⟩
        exact ⟨⟨hread, hreads⟩, s₁.lens, hafter, hbears⟩
    · rintro ⟨⟨hread, hreads⟩, k', hafter, hbears⟩
      have hs := (hround k').mpr ⟨hread, hafter⟩
      rcases hr : (walkStep mem ⟨p, last⟩ s).res with e | ⟨body', s₁⟩ <;> rw [hr] at hs
      · cases hs
      · obtain ⟨rfl, rfl⟩ := Prod.mk.inj (Except.ok.inj hs)
        obtain ⟨s', hrest⟩ := (ih s₁ (hsound.after hafter)).mpr ⟨hreads, hbears⟩
        exact ⟨s', by rw [loop_step hlt hr, hrest, firstBytes]⟩

/-- The walk finds a handler for each instruction of a sequence, fetches at exactly their first
bytes and ends at the end, if and only if they are all read as written and every `else` comes with a
pending `if`, save one behind which there are no `if`, no other `else` and no `end` of a block.

The `end` of a block behind such an `else` makes the handler store the address of an entry over the
eight bytes behind the `else`. The model halts there, and the walk counts as one that does not
decode the sequence. -/
theorem walk_decodes_iff (hv : ∀ i ∈ is, i.Valid) (hm : Holds mem p (encodeInstrs is)) :
    (∃ blks, fwModuleValidateWalk mem ⟨p, p + (encodeInstrs is).length⟩ .init =
        ⟨firstBytes p is, .ok (some ⟨p + (encodeInstrs is).length,
          p + (encodeInstrs is).length⟩, blks)⟩) ↔
      (∀ i ∈ is, i.ReadAsWritten) ∧ ElsesPending 0 0 is :=
  loop_decodes_iff hv (fun _ => rfl) hm rfl (Nat.lt_succ_self _)

/-- The bytes `05 0b`: an `else` without an `if` does not keep the walk from decoding them. -/
example : ElsesPending 0 0 [⟨0x05, []⟩, ⟨0x0b, []⟩] := by decide

end Sequences

/-- A constant, an empty block and the end of the function. -/
theorem walk_decodes_iff_block :
    let is : List WasmInstr := [⟨0x41, [0x01]⟩, ⟨0x02, [0x40]⟩, ⟨0x0b, []⟩, ⟨0x0b, []⟩]
    (∀ i ∈ is, i.Valid) ∧
      ((∃ blks, fwModuleValidateWalk (memOf (encodeInstrs is)) ⟨0, 0 + (encodeInstrs is).length⟩
          .init = ⟨firstBytes 0 is, .ok (some ⟨0 + (encodeInstrs is).length,
            0 + (encodeInstrs is).length⟩, blks)⟩) ↔
        (∀ i ∈ is, i.ReadAsWritten) ∧ ElsesPending 0 0 is) := by
  intro is
  have hv : ∀ i ∈ is, i.Valid := by
    have hconst : (⟨0x41, [0x01]⟩ : WasmInstr).Valid :=
      ⟨.s32, rfl, 1, by decide⟩
    have hblock : (⟨0x02, [0x40]⟩ : WasmInstr).Valid := ⟨.blockType, rfl, 0x40, rfl, .inl rfl⟩
    have hend : (⟨0x0b, []⟩ : WasmInstr).Valid := ⟨.nothing, rfl, rfl⟩
    simp [is, hconst, hblock, hend]
  exact ⟨hv, walk_decodes_iff hv (holds_memOf _)⟩

/-- A `nop` has no handler. It is a well-formed instruction of one byte, and since its opcode is
below `FW_INSTR_MAX`, the walk looks at its row and calls through a `NULL` pointer. -/
theorem nop_not_decoded :
    let is : List WasmInstr := [⟨0x01, []⟩]
    (∀ i ∈ is, i.Valid) ∧ Holds (memOf (encodeInstrs is)) 0 (encodeInstrs is) ∧
      ¬ ∃ blks, fwModuleValidateWalk (memOf (encodeInstrs is)) ⟨0, 0 + (encodeInstrs is).length⟩
        .init = ⟨firstBytes 0 is, .ok (some ⟨0 + (encodeInstrs is).length,
          0 + (encodeInstrs is).length⟩, blks)⟩ := by
  intro is
  have hnop : (⟨0x01, []⟩ : WasmInstr).Valid := ⟨.nothing, rfl, rfl⟩
  refine ⟨by simp [is, hnop], holds_memOf _, ?_⟩
  rintro ⟨blks, h⟩
  have hfault : (fwModuleValidateWalk (memOf (encodeInstrs is)) ⟨0, 0 + (encodeInstrs is).length⟩
      .init).res = .error (.fault .nullHandler) := rfl
  rw [h] at hfault
  cases hfault

end FastWasm
