import FastWasm.Syntax

/-!
# The binary format of instructions

The immediates that the binary format gives to every opcode of `FW_INSTR`, written down without
regard to the handlers that read them. An instruction is bytes with such immediates
(`WasmInstr.Valid`), a body is a sequence of instructions (`encodeInstrs`) or, where the nesting of
the blocks matters, a tree of them (`Code.WellFormed`).

The table of handlers does not follow the format everywhere. What its rows get right is
`WasmInstr.ReadAsWritten`, and `next_iff` says that this is all of it: a handler ends up behind the
immediates of its instruction in exactly these cases. The rows that are wrong are those of
`i32.load` and `call_indirect`, which read one immediate of two, and those of the float constants,
which read a number where there are raw bytes; `nop` and the other memory instructions have no
handler.

So there are two notions of a tree that the code can be expected to understand. `Code.WellFormed`
with `Code.ReadAsWritten` speaks of the format, and `Code.AsRead` of the handlers; the first two
give the third (`Code.asRead_of_readAsWritten`).
-/

namespace FastWasm

open Logged

/-! ## The grammar -/

/-- The shapes of immediates: none, numbers of 32 and 64 bits with and without a sign, raw bytes, a
block type, labels, and the two pairs that the format has. -/
inductive ImmKind where
  /-- nothing -/
  | nothing
  /-- a block type -/
  | blockType
  /-- an index -/
  | index
  /-- a count, labels and the default label -/
  | labels
  /-- a type index and a reserved byte -/
  | indirect
  /-- an alignment and an offset -/
  | memarg
  /-- a reserved byte -/
  | reserved
  /-- a signed 32-bit number -/
  | s32
  /-- a signed 64-bit number -/
  | s64
  /-- the four bytes of a float -/
  | float32
  /-- the eight bytes of a double -/
  | float64
  deriving DecidableEq, Repr

/-- The immediates of the opcodes of `FW_INSTR`, `none` for other opcodes. -/
def immKind (op : UInt8) : Option ImmKind :=
  match op.toNat with
  | 0x00 | 0x01 => some .nothing
  | 0x02 | 0x03 | 0x04 => some .blockType
  | 0x05 | 0x0b => some .nothing
  | 0x0c | 0x0d => some .index
  | 0x0e => some .labels
  | 0x0f => some .nothing
  | 0x10 => some .index
  | 0x11 => some .indirect
  | 0x1a | 0x1b => some .nothing
  | 0x20 | 0x21 | 0x22 | 0x23 | 0x24 => some .index
  | 0x3f | 0x40 => some .reserved
  | 0x41 => some .s32
  | 0x42 => some .s64
  | 0x43 => some .float32
  | 0x44 => some .float64
  | n =>
    if 0x28 ≤ n ∧ n < 0x3f then some .memarg
    else if 0x45 ≤ n ∧ n < 0xc0 then some .nothing
    else none

/-- An unsigned 32-bit number. -/
def U32 (bs : List UInt8) : Prop := Leb128.Encoding 5 bs ∧ Leb128.value bs < 2 ^ 32

/-- The bytes of an immediate. Numbers are those of the binary format: in no more bytes than their
width takes, and in the range of their width. Floats are raw bytes, any four or eight. -/
def ImmKind.Encodes : ImmKind → List UInt8 → Prop
  | .nothing, imm => imm = []
  | .blockType, imm => ∃ b, imm = [b] ∧ (b = 0x40 ∨ 0x7c ≤ b ∧ b ≤ 0x7f)
  | .index, imm => U32 imm
  | .labels, imm => ∃ (cnt : List UInt8) (labels : List (List UInt8)) (dflt : List UInt8),
      imm = cnt ++ (labels.flatten ++ dflt) ∧ U32 cnt ∧ (∀ label ∈ labels, U32 label) ∧
        U32 dflt ∧ labels.length = Leb128.value cnt
  | .indirect, imm => ∃ type, imm = type ++ [0x00] ∧ U32 type
  | .memarg, imm => ∃ align offset, imm = align ++ offset ∧ U32 align ∧ U32 offset
  | .reserved, imm => imm = [0x00]
  | .s32, imm => ∃ n, Leb128.SignedSpells 32 n imm
  | .s64, imm => ∃ n, Leb128.SignedSpells 64 n imm
  | .float32, imm => imm.length = 4
  | .float64, imm => imm.length = 8

/-- An instruction, as bytes. -/
structure WasmInstr where
  /-- the opcode -/
  op : UInt8
  /-- the immediates -/
  imm : List UInt8
  deriving DecidableEq, Repr

namespace WasmInstr

/-- An opcode of `FW_INSTR` with the immediates that the binary format gives it. -/
def Valid (i : WasmInstr) : Prop := ∃ kind, immKind i.op = some kind ∧ kind.Encodes i.imm

/-- The instructions that the table of handlers gets right: there is a handler; it is neither that
of `i32.load`, which reads the alignment only, nor that of `call_indirect`, which leaves the
reserved byte; and the bytes of a float happen to be a LEB128 number. -/
def ReadAsWritten (i : WasmInstr) : Prop :=
  (commonInstrHandler i.op).consume.isSome ∧ i.op ≠ fwInstrI32Load ∧ i.op ≠ fwInstrCallIndirect ∧
    (i.op = fwInstrF32Const ∨ i.op = fwInstrF64Const → Leb128.Terminated i.imm)

instance (i : WasmInstr) : Decidable i.ReadAsWritten :=
  inferInstanceAs (Decidable (_ ∧ _ ∧ _ ∧ _))

end WasmInstr

/-- The bytes of a sequence. -/
def encodeInstrs : List WasmInstr → List UInt8
  | [] => []
  | i :: is => i.op :: (i.imm ++ encodeInstrs is)

/-! ## The table against the grammar -/

/-- Whether a handler may stand in the row of an opcode with these immediates. -/
def rowAgrees (op : UInt8) : ImmKind → ConsumeFn → Bool
  | .nothing, .none_ => op ≠ fwInstrIf && op ≠ fwInstrElse && op ≠ fwInstrI32Load
      && op ≠ fwInstrCallIndirect && op ≠ fwInstrF32Const && op ≠ fwInstrF64Const
  | .nothing, .else_ => op = fwInstrElse
  | .nothing, .end_ => op = fwInstrEnd
  | .blockType, .block => op = fwInstrBlock || op = fwInstrLoop
  | .blockType, .if_ => op = fwInstrIf
  | .index, .c32 | .s32, .c32 | .s64, .c64 | .labels, .brtbl =>
    op ≠ fwInstrIf && op ≠ fwInstrElse && op ≠ fwInstrI32Load && op ≠ fwInstrCallIndirect
      && op ≠ fwInstrF32Const && op ≠ fwInstrF64Const
  | .indirect, .c32 => op = fwInstrCallIndirect
  | .memarg, .c32 => op = fwInstrI32Load
  | .float32, .c32 => op = fwInstrF32Const
  | .float64, .c64 => op = fwInstrF64Const
  | _, _ => false

/-- The rows of the table, one by one: where a row has a handler, the handler is one that may stand
there. It is checked on all 256 opcodes. -/
theorem row_agrees {op : UInt8} {kind : ImmKind} {fn : ConsumeFn} (hk : immKind op = some kind)
    (hc : (commonInstrHandler op).consume = some fn) : rowAgrees op kind fn = true := by
  have hall : ∀ op : UInt8, ∀ kind ∈ immKind op, ∀ fn ∈ (commonInstrHandler op).consume,
      rowAgrees op kind fn = true := forall_byte (by decide +kernel)
  exact hall op kind hk fn hc

/-- The opcodes of `FW_INSTR` are all below `FW_INSTR_MAX`. -/
theorem getInstr_of_kind {op : UInt8} {kind : ImmKind} (hk : immKind op = some kind) :
    fwGetInstr op = some (commonInstrHandler op) := by
  have hall : ∀ op : UInt8, (immKind op).isSome → fwGetInstr op = some (commonInstrHandler op) :=
    forall_byte (by decide +kernel)
  exact hall op (by rw [hk]; rfl)

/-! ## One instruction -/

section Instructions

variable {mem : Mem} {last p : ℕ} {s s' : FuncBlks} {i : WasmInstr} {is : List WasmInstr}

/-- A read that is to end behind `bs`, and finds a number there: it ends behind `bs` exactly when
these bytes are one number. -/
theorem leb_next_iff {maxbit : ℕ} {bs : List UInt8} (hm : Holds mem p bs)
    (hlast : p + bs.length ≤ last) (hne : bs ≠ []) (hlen : bs.length ≤ (maxbit + 7 - 1) / 7)
    (hmax : (maxbit + 7 - 1) / 7 < 256) :
    (fwStrLebGetu mem ⟨p, last⟩ maxbit).next ⟨p, last⟩ = some ⟨p + bs.length, last⟩ ↔
      Leb128.Terminated bs := by
  have hpos := List.length_pos_iff.mpr hne
  refine ⟨?_, ?_⟩
  · intro h
    obtain ⟨-, heq⟩ | ⟨v, hr⟩ := leb_next_eq_some h
    · have hp := (FwStr.mk.inj heq).1
      omega
    · exact (encoding_of_getu hr hm hne rfl).1
  · intro ht
    rw [getu_of_encoding ⟨p, last⟩ ⟨ht, hlen⟩ hmax hm (by simp only; omega), LebRead.next]

/-- A read that finds a number ends before what follows it. -/
theorem leb_next_ne {bs bs' : List UInt8} (hbs : Leb128.Encoding 5 bs) (hne : bs' ≠ [])
    (hm : Holds mem p (bs ++ bs')) (hlast : p + (bs ++ bs').length ≤ last) :
    (fwStrLebGetu mem ⟨p, last⟩ 32).next ⟨p, last⟩ ≠ some ⟨p + (bs ++ bs').length, last⟩ := by
  have hpos := List.length_pos_iff.mpr hne
  rw [holds_append] at hm
  rw [List.length_append] at hlast ⊢
  rw [getu32_of_encoding hbs hm.1 (by omega), LebRead.next]
  simp only [ne_eq, Option.some.injEq, FwStr.mk.injEq, and_true]
  omega

/-- The labels of a `br_table` are what its handler takes. -/
theorem takes_of_labels {imm : List UInt8} (h : ImmKind.labels.Encodes imm) :
    ConsumeFn.brtbl.Takes imm := by
  obtain ⟨cnt, labels, dflt, rfl, hcnt, hlabels, hdflt, hlen⟩ := h
  exact ⟨cnt, labels, dflt, rfl, hcnt.1, fun l hl => (hlabels l hl).1, hdflt.1,
    by rw [hlen, Nat.mod_eq_of_lt hcnt.2]⟩

/-- A block type is a number of one byte. -/
theorem terminated_of_blockType {imm : List UInt8} (h : ImmKind.blockType.Encodes imm) :
    Leb128.Encoding 5 imm := by
  obtain ⟨b, rfl, hb⟩ := h
  refine ⟨?_, Nat.le_of_ble_eq_true rfl⟩
  rcases hb with rfl | ⟨-, hb⟩
  · decide
  · exact UInt8.lt_of_le_of_lt hb (by decide)

/-- The bytes of a float that stand for nothing else: the handler goes over all of them exactly when
they form one number. -/
theorem next_float_iff {maxbit : ℕ} (hsome : (commonInstrHandler i.op).consume.isSome)
    (hop : i.op = fwInstrF32Const ∨ i.op = fwInstrF64Const) (hm : Holds mem (p + 1) i.imm)
    (hlast : p + 1 + i.imm.length ≤ last) (hne : i.imm ≠ [])
    (hlen : i.imm.length ≤ (maxbit + 7 - 1) / 7) (hmax : (maxbit + 7 - 1) / 7 < 256) :
    (fwStrLebGetu mem ⟨p + 1, last⟩ maxbit).next ⟨p + 1, last⟩ =
      some ⟨p + 1 + i.imm.length, last⟩ ↔ i.ReadAsWritten := by
  rw [leb_next_iff hm hlast hne hlen hmax]
  refine ⟨fun ht => ⟨hsome, ?_, ?_, fun _ => ht⟩, fun h => h.2.2.2 hop⟩ <;>
    rcases hop with hop | hop <;> rw [hop] <;> decide

/-- A handler goes over the immediates of its instruction if and only if it reads them as they are
written. -/
theorem next_iff {kind : ImmKind} {fn : ConsumeFn} (hk : immKind i.op = some kind)
    (he : kind.Encodes i.imm) (hc : (commonInstrHandler i.op).consume = some fn)
    (hm : Holds mem (p + 1) i.imm) (hlast : p + 1 + i.imm.length ≤ last) :
    fn.next mem ⟨p + 1, last⟩ = some ⟨p + 1 + i.imm.length, last⟩ ↔ i.ReadAsWritten := by
  have hrow := row_agrees hk hc
  have hsome : (commonInstrHandler i.op).consume.isSome := by rw [hc]; rfl
  -- the rows whose handler reads what the grammar says
  have hgood : fn.next mem ⟨p + 1, last⟩ = some ⟨p + 1 + i.imm.length, last⟩ →
      (i.op ≠ fwInstrI32Load ∧ i.op ≠ fwInstrCallIndirect ∧ i.op ≠ fwInstrF32Const ∧
        i.op ≠ fwInstrF64Const) →
      (fn.next mem ⟨p + 1, last⟩ = some ⟨p + 1 + i.imm.length, last⟩ ↔ i.ReadAsWritten) :=
    fun hn hop => iff_of_true hn
      ⟨hsome, hop.1, hop.2.1, fun h => absurd h (not_or.mpr ⟨hop.2.2.1, hop.2.2.2⟩)⟩
  cases kind <;> cases fn <;>
    simp only [rowAgrees, Bool.and_eq_true, Bool.or_eq_true, decide_eq_true_eq,
      Bool.false_eq_true] at hrow
  case nothing.none_ =>
    exact hgood (next_of_takes .none_ he hm hlast) (by tauto)
  case nothing.else_ | nothing.end_ =>
    refine hgood ?_ (by rw [hrow]; decide)
    rw [show i.imm = [] from he]
    rfl
  case blockType.block =>
    refine hgood ?_ (by rcases hrow with hrow | hrow <;> rw [hrow] <;> decide)
    exact next_of_takes .c32 (terminated_of_blockType he) hm hlast
  case blockType.if_ =>
    refine hgood ?_ (by rw [hrow]; decide)
    exact next_of_takes .c32 (terminated_of_blockType he) hm hlast
  case index.c32 => exact hgood (next_of_takes .c32 he.1 hm hlast) (by tauto)
  case s32.c32 =>
    obtain ⟨n, -, henc, -⟩ := he
    exact hgood (next_of_takes .c32 henc hm hlast) (by tauto)
  case s64.c64 =>
    obtain ⟨n, -, henc, -⟩ := he
    exact hgood (next_of_takes .c64 henc hm hlast) (by tauto)
  case labels.brtbl =>
    exact hgood (next_of_takes .brtbl (takes_of_labels he) hm hlast) (by tauto)
  case indirect.c32 =>
    obtain ⟨type, himm, htype⟩ := he
    rw [himm] at hm hlast ⊢
    exact iff_of_false (leb_next_ne htype.1 (by simp) hm hlast) fun h => h.2.2.1 hrow
  case memarg.c32 =>
    obtain ⟨align, offset, himm, halign, hoffset⟩ := he
    rw [himm] at hm hlast ⊢
    exact iff_of_false (leb_next_ne halign.1 hoffset.1.1.ne_nil hm hlast) fun h => h.2.1 hrow
  case float32.c32 =>
    have hlen : i.imm.length = 4 := he
    exact next_float_iff hsome (.inl hrow) hm hlast
      (List.length_pos_iff.mp (by omega)) (by omega) (by decide)
  case float64.c64 =>
    have hlen : i.imm.length = 8 := he
    exact next_float_iff hsome (.inr hrow) hm hlast
      (List.length_pos_iff.mp (by omega)) (by omega) (by decide)

end Instructions

/-! ## Bodies -/

/-- The blocks of a sequence are in order, and its last instruction is the `end` of the function.
The list holds the open blocks, the innermost one first, with `true` for an `if` that may still have
an `else`. -/
def Nested : List Bool → List WasmInstr → Prop
  | _, [] => False
  | opens, i :: is =>
    if i.op = fwInstrBlock ∨ i.op = fwInstrLoop then Nested (false :: opens) is
    else if i.op = fwInstrIf then Nested (true :: opens) is
    else if i.op = fwInstrElse then
      match opens with
      | true :: opens => Nested (false :: opens) is
      | _ => False
    else if i.op = fwInstrEnd then
      match opens with
      | [] => is = []
      | _ :: opens => Nested opens is
    else Nested opens is

/-- A function body in the binary format: from the first byte to exactly the last one it is a
sequence of known opcodes with the immediates of the format, every block is closed, every `else`
belongs to an open `if`, and the last instruction is the function's own `end`. -/
def FwStr.WellFormed (mem : Mem) (body : FwStr) : Prop :=
  ∃ is : List WasmInstr, (∀ i ∈ is, i.Valid) ∧ Nested [] is ∧ Holds mem body.pos (encodeInstrs is) ∧
    body.last = body.pos + (encodeInstrs is).length

/-! ## Trees of instructions -/

/-- The opcodes that open, switch or close a block. In a tree they stand for its branches and never
for a straight-line instruction. -/
def IsControl (op : UInt8) : Prop :=
  op = fwInstrBlock ∨ op = fwInstrLoop ∨ op = fwInstrIf ∨ op = fwInstrElse ∨ op = fwInstrEnd

instance (op : UInt8) : Decidable (IsControl op) :=
  inferInstanceAs (Decidable (_ ∨ _ ∨ _ ∨ _ ∨ _))

namespace Code

/-- Every instruction has an opcode of `FW_INSTR` and the immediates that the binary format gives
it, and every block has a block type of the format. -/
def WellFormed : Code → Prop
  | .nil => True
  | .instr op imm rest => (WasmInstr.Valid ⟨op, imm⟩ ∧ ¬ IsControl op) ∧ rest.WellFormed
  | .block _ bt inner rest => ImmKind.blockType.Encodes bt ∧ inner.WellFormed ∧ rest.WellFormed
  | .ifThen bt thn rest => ImmKind.blockType.Encodes bt ∧ thn.WellFormed ∧ rest.WellFormed
  | .ifElse bt thn els rest =>
    ImmKind.blockType.Encodes bt ∧ thn.WellFormed ∧ els.WellFormed ∧ rest.WellFormed

/-- The table of handlers gets every straight-line instruction right. It gets every block type of
the format right. -/
def ReadAsWritten : Code → Prop
  | .nil => True
  | .instr op imm rest => WasmInstr.ReadAsWritten ⟨op, imm⟩ ∧ rest.ReadAsWritten
  | .block _ _ inner rest => inner.ReadAsWritten ∧ rest.ReadAsWritten
  | .ifThen _ thn rest => thn.ReadAsWritten ∧ rest.ReadAsWritten
  | .ifElse _ thn els rest => thn.ReadAsWritten ∧ els.ReadAsWritten ∧ rest.ReadAsWritten

instance decidableReadAsWritten : (code : Code) → Decidable code.ReadAsWritten
  | .nil => isTrue trivial
  | .instr _ _ rest =>
    have := decidableReadAsWritten rest
    inferInstanceAs (Decidable (_ ∧ _))
  | .block _ _ inner rest | .ifThen _ inner rest =>
    have := decidableReadAsWritten inner
    have := decidableReadAsWritten rest
    inferInstanceAs (Decidable (_ ∧ _))
  | .ifElse _ thn els rest =>
    have := decidableReadAsWritten thn
    have := decidableReadAsWritten els
    have := decidableReadAsWritten rest
    inferInstanceAs (Decidable (_ ∧ _ ∧ _))

end Code

/-- An instruction that the table gets right is read in full, as a straight-line one. By cases on
the kind of the immediates and on the handler of the row; most pairs do not occur in the table, and
in the others what is read is what was written. -/
theorem straightAsRead_of_readAsWritten {op : UInt8} {imm : List UInt8}
    (hv : WasmInstr.Valid ⟨op, imm⟩) (hctl : ¬ IsControl op)
    (hr : WasmInstr.ReadAsWritten ⟨op, imm⟩) : StraightAsRead op imm := by
  obtain ⟨kind, hk, he⟩ := hv
  obtain ⟨hsome, hload, hindirect, hfloat⟩ := hr
  obtain ⟨fn, hc⟩ := Option.isSome_iff_exists.mp hsome
  refine ⟨_, fn, getInstr_of_kind hk, hc, ?_⟩
  have hrow := row_agrees hk hc
  simp only [IsControl, not_or] at hctl
  cases kind <;> cases fn <;>
    simp only [rowAgrees, Bool.and_eq_true, Bool.or_eq_true, decide_eq_true_eq,
      Bool.false_eq_true] at hrow
  case nothing.none_ => exact he
  case nothing.else_ => exact absurd hrow hctl.2.2.2.1
  case nothing.end_ => exact absurd hrow hctl.2.2.2.2
  case blockType.block => exact absurd hrow (not_or.mpr ⟨hctl.1, hctl.2.1⟩)
  case blockType.if_ => exact absurd hrow hctl.2.2.1
  case index.c32 => exact he.1
  case labels.brtbl => exact takes_of_labels he
  case indirect.c32 => exact absurd hrow hindirect
  case memarg.c32 => exact absurd hrow hload
  case s32.c32 =>
    obtain ⟨n, -, henc, -⟩ := he
    exact henc
  case s64.c64 =>
    obtain ⟨n, -, henc, -⟩ := he
    exact henc
  case float32.c32 => exact ⟨hfloat (.inl hrow), (show imm.length = 4 from he) ▸ by decide⟩
  case float64.c64 => exact ⟨hfloat (.inr hrow), (show imm.length = 8 from he) ▸ by decide⟩

/-- A tree of the format whose instructions the table gets right is what the handlers read, by
induction on the tree. -/
theorem Code.asRead_of_readAsWritten {code : Code} (hwf : code.WellFormed)
    (hr : code.ReadAsWritten) : code.AsRead := by
  induction code with
  | nil => trivial
  | instr op imm rest ih =>
    exact ⟨straightAsRead_of_readAsWritten hwf.1.1 hwf.1.2 hr.1, ih hwf.2 hr.2⟩
  | block loop bt inner rest ihi ihr =>
    exact ⟨terminated_of_blockType hwf.1, ihi hwf.2.1 hr.1, ihr hwf.2.2 hr.2⟩
  | ifThen bt thn rest iht ihr =>
    exact ⟨terminated_of_blockType hwf.1, iht hwf.2.1 hr.1, ihr hwf.2.2 hr.2⟩
  | ifElse bt thn els rest iht ihe ihr =>
    exact ⟨terminated_of_blockType hwf.1, iht hwf.2.1 hr.1, ihe hwf.2.2.1 hr.2.1,
      ihr hwf.2.2.2 hr.2.2⟩

end FastWasm
