import FastWasm.Walk

/-!
# Structured code and its encoding

The syntax trees that a function body encodes: straight-line instructions, nested `block`, `loop`
and `if`, each `if` with or without an `else`. Beside the encoding stand the constructs of a tree,
with the positions at which they lie in the bytes.

A tree is any nesting of any bytes; what makes it the tree of its encoding for the code is that the
handlers of the validator and of the executor read each instruction up to where the next one starts
(`Code.AsRead`). What the binary format says about the same bytes is in `Format`.

The tree of a sequence is its first item with the rest behind it, so an induction on a tree has one
case for each kind of item and goes through sequence and nesting at once. The positions are computed
along the tree: `Code.constructs` lists every `block`, `loop` and `if` with its start, the place
behind its `else` and that behind its `end`, and its order is that in which they open.
-/

namespace FastWasm

open Logged

/-! ## Immediates

A handler takes some bytes when it moves its cursor behind just these, wherever they are. -/

/-- The immediates of a `br_table`: a count, that many labels, the default label. -/
def BrtblImm (imm : List UInt8) : Prop :=
  ∃ (cnt : List UInt8) (labels : List (List UInt8)) (dflt : List UInt8),
    imm = cnt ++ (labels.flatten ++ dflt) ∧ Leb128.Encoding 5 cnt ∧
      (∀ label ∈ labels, Leb128.Encoding 5 label) ∧ Leb128.Encoding 5 dflt ∧
      labels.length = Leb128.value cnt % 2 ^ 32

/-- The immediates that a handler of straight-line instructions reads in full: nothing, one number,
or the labels of a `br_table`. -/
def ConsumeFn.Takes : ConsumeFn → List UInt8 → Prop
  | .none_, imm => imm = []
  | .c32, imm => Leb128.Encoding 5 imm
  | .c64, imm => Leb128.Encoding 10 imm
  | .brtbl, imm => BrtblImm imm
  | .block, _ | .if_, _ | .else_, _ | .end_, _ => False

section Reads

variable {mem : Mem} {p last : ℕ}

/-- A 32-bit number that is there is read, with the cursor behind it. -/
theorem getu32_of_encoding {bs : List UInt8} (hbs : Leb128.Encoding 5 bs) (hm : Holds mem p bs)
    (hlast : p + bs.length ≤ last) :
    fwStrLebGetu mem ⟨p, last⟩ 32 = .got (lebBits bs 0 0) ⟨p + bs.length, last⟩ :=
  getu_of_encoding ⟨p, last⟩ hbs (by decide) hm
    (by have := hbs.1.length_pos; simp only; omega)

/-- A 64-bit number that is there is read, with the cursor behind it. -/
theorem getu64_of_encoding {bs : List UInt8} (hbs : Leb128.Encoding 10 bs) (hm : Holds mem p bs)
    (hlast : p + bs.length ≤ last) :
    fwStrLebGetu mem ⟨p, last⟩ 64 = .got (lebBits bs 0 0) ⟨p + bs.length, last⟩ :=
  getu_of_encoding ⟨p, last⟩ hbs (by decide) hm
    (by have := hbs.1.length_pos; simp only; omega)

/-- The labels of a `br_table`, one behind the other, are all read. -/
theorem brtblLoop_of_labels :
    ∀ {labels : List (List UInt8)} {p : ℕ}, (∀ label ∈ labels, Leb128.Encoding 5 label) →
      Holds mem p labels.flatten → p + labels.flatten.length ≤ last →
      fwInstrConsumeBrtblLoop mem labels.length ⟨p, last⟩ =
        some (true, ⟨p + labels.flatten.length, last⟩)
  | [], p, _, _, _ => rfl
  | label :: labels, p, hl, hm, hlast => by
    rw [List.flatten_cons, holds_append] at hm
    rw [List.flatten_cons, List.length_append] at hlast ⊢
    rw [List.length_cons, fwInstrConsumeBrtblLoop,
      getu32_of_encoding (hl label (List.mem_cons_self ..)) hm.1 (by omega)]
    have ih := brtblLoop_of_labels (p := p + label.length)
      (fun l h => hl l (List.mem_cons_of_mem _ h)) hm.2 (by omega)
    rw [← Nat.add_assoc]
    exact ih

/-- A handler goes over the immediates that it takes, wherever they lie in memory, when they end
before the window does. -/
theorem next_of_takes (fn : ConsumeFn) {imm : List UInt8} (h : fn.Takes imm) (hm : Holds mem p imm)
    (hlast : p + imm.length ≤ last) : fn.next mem ⟨p, last⟩ = some ⟨p + imm.length, last⟩ := by
  cases fn with
  | none_ =>
    obtain rfl : imm = [] := h
    rfl
  | c32 => rw [ConsumeFn.next, getu32_of_encoding h hm hlast, LebRead.next]
  | c64 => rw [ConsumeFn.next, getu64_of_encoding h hm hlast, LebRead.next]
  | brtbl =>
    obtain ⟨cnt, labels, dflt, rfl, hcnt, hlabels, hdflt, hlen⟩ := h
    simp only [holds_append] at hm
    simp only [List.length_append] at hlast
    have hval : (lebBits cnt 0 0).toUInt32.toNat = labels.length := by
      rw [toNat_lebBits (by have := hcnt.2; simp only [UInt8.reduceToNat]; omega) (by decide), hlen]
      simp
    have hloop := brtblLoop_of_labels hlabels hm.2.1 (by omega : _ ≤ last)
    have hread := getu32_of_encoding hdflt hm.2.2 (by omega : _ ≤ last)
    rw [ConsumeFn.next, getu32_of_encoding hcnt hm.1 (by omega)]
    simp only [hval, hloop, hread, LebRead.next, List.length_append, ← Nat.add_assoc]
  | block | if_ | else_ | end_ => exact h.elim

/-- What a handler takes, it takes in straight line, without a look at the block lists. -/
theorem plain_of_takes {fn : ConsumeFn} {imm : List UInt8} (h : fn.Takes imm) : fn.Plain := by
  cases fn with
  | none_ | c32 | c64 | brtbl => decide
  | block | if_ | else_ | end_ => exact h.elim

end Reads

/-! ## Trees

Code is a sequence, where a construct holds the sequences of its branches. The bytes of a tree are
given by recursion. -/

/-- The opcode of a `block` or a `loop`, which are alike but for it. -/
def blockCode (loop : Bool) : UInt8 := if loop then fwInstrLoop else fwInstrBlock

/-- Structured code, each item with what comes behind it. The byte lists are immediates, those
called `bt` block types. -/
inductive Code where
  /-- nothing -/
  | nil
  /-- a straight-line instruction -/
  | instr (op : UInt8) (imm : List UInt8) (rest : Code)
  /-- a `block` or a `loop` -/
  | block (loop : Bool) (bt : List UInt8) (inner rest : Code)
  /-- an `if` without an `else` -/
  | ifThen (bt : List UInt8) (thn rest : Code)
  /-- an `if` with an `else` -/
  | ifElse (bt : List UInt8) (thn els rest : Code)

/-- An opcode with a handler, and the bytes that this handler reads behind it. For `i32.load`,
`call_indirect`, `f32.const` and `f64.const` they are not the immediates of the binary format: the
handlers of the first two read one number and leave the rest, and those of the floats take raw bytes
for a number. -/
def StraightAsRead (op : UInt8) (imm : List UInt8) : Prop :=
  ∃ instr fn, fwGetInstr op = some instr ∧ instr.consume = some fn ∧ fn.Takes imm

namespace Code

/-- The bytes of a tree. -/
def encode : Code → List UInt8
  | .nil => []
  | .instr op imm rest => op :: (imm ++ rest.encode)
  | .block loop bt inner rest =>
    blockCode loop :: (bt ++ (inner.encode ++ fwInstrEnd :: rest.encode))
  | .ifThen bt thn rest => fwInstrIf :: (bt ++ (thn.encode ++ fwInstrEnd :: rest.encode))
  | .ifElse bt thn els rest =>
    fwInstrIf ::
      (bt ++ (thn.encode ++ fwInstrElse :: (els.encode ++ fwInstrEnd :: rest.encode)))

section Ends

variable (p : ℕ) (op : UInt8) (loop : Bool) (imm bt : List UInt8) (inner thn els rest : Code)

/-- Where the bytes of an instruction at `p` and of what follows it end. -/
theorem end_instr : p + (instr op imm rest).encode.length =
    p + 1 + imm.length + rest.encode.length := by
  simp only [encode, List.length_cons, List.length_append]
  omega

theorem end_block : p + (block loop bt inner rest).encode.length =
    p + 1 + bt.length + inner.encode.length + 1 + rest.encode.length := by
  simp only [encode, List.length_cons, List.length_append]
  omega

theorem end_ifThen : p + (ifThen bt thn rest).encode.length =
    p + 1 + bt.length + thn.encode.length + 1 + rest.encode.length := by
  simp only [encode, List.length_cons, List.length_append]
  omega

theorem end_ifElse : p + (ifElse bt thn els rest).encode.length =
    p + 1 + bt.length + thn.encode.length + 1 + els.encode.length + 1 + rest.encode.length := by
  simp only [encode, List.length_cons, List.length_append]
  omega

end Ends

/-- The handlers of the validator read each instruction in full, and nothing behind it. This is not
the binary format: where a handler reads other immediates than the format gives the instruction,
this is about what the handler reads (`Code.asRead_of_readAsWritten` connects the two). -/
def AsRead : Code → Prop
  | .nil => True
  | .instr op imm rest => StraightAsRead op imm ∧ rest.AsRead
  | .block _ bt inner rest => Leb128.Encoding 5 bt ∧ inner.AsRead ∧ rest.AsRead
  | .ifThen bt thn rest => Leb128.Encoding 5 bt ∧ thn.AsRead ∧ rest.AsRead
  | .ifElse bt thn els rest =>
    Leb128.Encoding 5 bt ∧ thn.AsRead ∧ els.AsRead ∧ rest.AsRead

end Code

/-! ## Positions

Where the parts of a tree lie, once it is known where the tree does. -/

/-- A `block`, `loop` or `if` in the bytes of a tree: where it starts, where its `else` branch does
if it has one, and where it ends. -/
structure Construct where
  /-- behind the block type -/
  start : ℕ
  /-- behind its own `else`, or behind its own `end` when it has none -/
  els : ℕ
  /-- behind its own `end` -/
  fin : ℕ
  /-- the opcode that opens it -/
  type : UInt8
  deriving DecidableEq, Repr

/-- The block entry that records a construct. Without an `else` its `els` is its end, as the
validator leaves it. -/
def Construct.block (c : Construct) : FwModuleFuncBlock :=
  ⟨some c.start, some c.els, some c.fin, c.type⟩

/-- The constructs of a tree that lies at `p`, in the order in which they open. -/
def Code.constructs : Code → ℕ → List Construct
  | .nil, _ => []
  | .instr _ imm rest, p => rest.constructs (p + 1 + imm.length)
  | .block loop bt inner rest, p =>
    let start := p + 1 + bt.length
    let fin := start + inner.encode.length + 1
    ⟨start, fin, fin, blockCode loop⟩ :: (inner.constructs start ++ rest.constructs fin)
  | .ifThen bt thn rest, p =>
    let start := p + 1 + bt.length
    let fin := start + thn.encode.length + 1
    ⟨start, fin, fin, fwInstrIf⟩ :: (thn.constructs start ++ rest.constructs fin)
  | .ifElse bt thn els rest, p =>
    let start := p + 1 + bt.length
    let elsePos := start + thn.encode.length + 1
    let fin := elsePos + els.encode.length + 1
    ⟨start, elsePos, fin, fwInstrIf⟩ ::
      (thn.constructs start ++ els.constructs elsePos ++ rest.constructs fin)

/-- The constructs of a tree lie inside its bytes, and their three positions are in order. By
induction on the tree, where the code inside of a construct is shorter than the construct, by its
opcode at least. -/
theorem constructs_bounds {code : Code} :
    ∀ {p : ℕ}, ∀ c ∈ code.constructs p,
      p < c.start ∧ c.start < c.els ∧ c.els ≤ c.fin ∧ c.fin ≤ p + code.encode.length := by
  induction code with
  | nil => exact fun c hc => by cases hc
  | instr op imm rest ih =>
    intro p c hc
    have h := ih c hc
    simp only [Code.encode, List.length_cons, List.length_append]
    omega
  | block _ _ inner rest ihi ihr | ifThen _ inner rest ihi ihr =>
    intro p c hc
    simp only [Code.encode, List.length_cons, List.length_append]
    simp only [Code.constructs, List.mem_cons, List.mem_append] at hc
    rcases hc with rfl | hc | hc
    · dsimp only
      omega
    · have h := ihi c hc
      omega
    · have h := ihr c hc
      omega
  | ifElse bt thn els rest iht ihe ihr =>
    intro p c hc
    simp only [Code.encode, List.length_cons, List.length_append]
    simp only [Code.constructs, List.mem_cons, List.mem_append, or_assoc] at hc
    rcases hc with rfl | hc | hc | hc
    · dsimp only
      omega
    · have h := iht c hc
      omega
    · have h := ihe c hc
      omega
    · have h := ihr c hc
      omega

/-- Later constructs start later, so a construct is found by its start. Constructs inside start
behind the one around them, and what follows starts behind its end. -/
theorem constructs_start_lt (code : Code) :
    ∀ {p : ℕ}, (code.constructs p).Pairwise fun c d => c.start < d.start := by
  induction code with
  | nil => exact List.Pairwise.nil
  | instr op imm rest ih => exact ih
  | block _ _ inner rest ihi ihr | ifThen _ inner rest ihi ihr =>
    intro p
    refine List.pairwise_cons.mpr ⟨?_, List.pairwise_append.mpr ⟨ihi, ihr, ?_⟩⟩
    · intro c hc
      rcases List.mem_append.mp hc with hc | hc
      · exact (constructs_bounds c hc).1
      · have h := constructs_bounds c hc
        dsimp only
        omega
    · intro c hc d hd
      have h := constructs_bounds c hc
      have h' := constructs_bounds d hd
      omega
  | ifElse bt thn els rest iht ihe ihr =>
    intro p
    refine List.pairwise_cons.mpr ⟨?_, List.pairwise_append.mpr
      ⟨List.pairwise_append.mpr ⟨iht, ihe, ?_⟩, ihr, ?_⟩⟩
    · intro c hc
      rcases List.mem_append.mp hc with hc | hc
      · rcases List.mem_append.mp hc with hc | hc
        · exact (constructs_bounds c hc).1
        · have h := constructs_bounds c hc
          dsimp only
          omega
      · have h := constructs_bounds c hc
        dsimp only
        omega
    · intro c hc d hd
      have h := constructs_bounds c hc
      have h' := constructs_bounds d hd
      omega
    · intro c hc d hd
      have h' := constructs_bounds d hd
      rcases List.mem_append.mp hc with hc | hc
      · have h := constructs_bounds c hc
        omega
      · have h := constructs_bounds c hc
        omega

end FastWasm
