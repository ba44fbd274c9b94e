import FastWasm.Loader
import FastWasm.LebBounds

/-!
# Constant expressions (`module/fw_loader.c`)

`fw_module_parse_expr` passes over a literal, its immediate and `end`. It returns `FW_OK` exactly
for these bytes (`parseExpr_exact`), although the reader of numbers may pass the end and may take
256 bytes for none: `end` is not found then, behind the end or where the number starts.

What the bytes of a constant expression are is said twice. `ConstExpr` is an expression before it is
encoded, with a value for its literal, for the sections that are encoded and read back. `ExprBytes`
is what the parser can see: an opcode, bytes that may stand behind it, and `end`. The parser does
not look at the value, and takes the raw bytes of a float for nothing else.
-/

namespace FastWasm

open Logged (Fallible)
open Logged.Fallible
open Leb128

variable {mem : Mem} {str str' : FwStr}

/-- A constant expression, before it is encoded. There are the five forms that the source has a case
for. -/
inductive ConstExpr where
  /-- `i32.const` -/
  | i32Const (n : Int32)
  /-- `i64.const` -/
  | i64Const (n : Int64)
  /-- `f32.const`, the bytes of the number -/
  | f32Const (bits : { bs : List UInt8 // bs.length = 4 })
  /-- `f64.const`, the bytes of the number -/
  | f64Const (bits : { bs : List UInt8 // bs.length = 8 })
  /-- `global.get` -/
  | globalGet (idx : UInt32)

namespace ConstExpr

/-- The opcode. -/
def opcode : ConstExpr → UInt8
  | i32Const _ => 0x41
  | i64Const _ => 0x42
  | f32Const _ => 0x43
  | f64Const _ => 0x44
  | globalGet _ => 0x23

/-- The encoding of the immediate: a number with a sign, the bytes of a float, or an index. -/
def EncodesImm : ConstExpr → List UInt8 → Prop
  | i32Const n, bs => SignedSpells 32 n.toInt bs
  | i64Const n, bs => SignedSpells 64 n.toInt bs
  | f32Const bits, bs => bs = bits
  | f64Const bits, bs => bs = bits
  | globalGet idx, bs => Spells 32 idx.toNat bs

/-- The encoding: the opcode, the immediate and `end`. -/
def Encodes (e : ConstExpr) (bs : List UInt8) : Prop :=
  ∃ imm, e.EncodesImm imm ∧ bs = [e.opcode] ++ (imm ++ [0x0b])

end ConstExpr

/-- The bytes that may stand behind a literal: a number of at most so many bytes, of which the last
only has no high bit, or four or eight bytes of any kind. -/
inductive ExprImm : UInt8 → List UInt8 → Prop
  /-- `i32.const`, a number of at most 5 bytes -/
  | i32Const {imm : List UInt8} (h : Encoding 5 imm) : ExprImm 0x41 imm
  /-- `i64.const`, a number of at most 10 bytes -/
  | i64Const {imm : List UInt8} (h : Encoding 10 imm) : ExprImm 0x42 imm
  /-- `f32.const`, 4 bytes -/
  | f32Const {imm : List UInt8} (h : imm.length = 4) : ExprImm 0x43 imm
  /-- `f64.const`, 8 bytes -/
  | f64Const {imm : List UInt8} (h : imm.length = 8) : ExprImm 0x44 imm
  /-- `global.get`, a number of at most 5 bytes -/
  | globalGet {imm : List UInt8} (h : Encoding 5 imm) : ExprImm 0x23 imm

/-- The bytes of a constant expression: a literal, what may stand behind it and `end`. -/
def ExprBytes (bs : List UInt8) : Prop :=
  ∃ literal imm, ExprImm literal imm ∧ bs = [literal] ++ (imm ++ [0x0b])

/-- Encodings are such bytes, since a number of so many bits has at most so many bytes. -/
theorem ConstExpr.Encodes.exprBytes {e : ConstExpr} {bs : List UInt8} (h : e.Encodes bs) :
    ExprBytes bs := by
  obtain ⟨imm, himm, rfl⟩ := h
  refine ⟨e.opcode, imm, ?_, rfl⟩
  cases e with
  | i32Const n => exact .i32Const himm.2.1
  | i64Const n => exact .i64Const himm.2.1
  | f32Const bits => exact .f32Const (himm ▸ bits.2)
  | f64Const bits => exact .f64Const (himm ▸ bits.2)
  | globalGet idx => exact .globalGet himm.2.1

/-- The `switch` of `fw_module_parse_expr`. A literal that it has no case for is an error. -/
def fwExprImm (mem : Mem) (literal : UInt8) : Parse PUnit :=
  if literal = 0x41 then do
    let _ ← fwStrLebGeti32 mem
  else if literal = 0x42 then do
    let _ ← fwStrLebGeti64 mem
  else if literal = 0x43 then
    fwStrPass 4
  else if literal = 0x44 then
    fwStrPass 8
  else if literal = 0x23 then do
    let _ ← fwStrLebGeti32 mem
  else fail

/-- `fw_module_parse_expr` returns `FW_OK` when a literal, its immediate and `end` can be read one
behind the other. -/
theorem runs_parseExpr {str str' : FwStr} {u : PUnit} :
    Runs (fwModuleParseExpr mem) str u str' ↔
      ∃ literal d d', Runs (Parse.get8 mem) str literal d ∧ Runs (fwExprImm mem literal) d ⟨⟩ d' ∧
        Runs (Parse.get8 mem) d' 0x0b str' := by
  have hend (d : FwStr) : Runs (Parse.get8 mem >>= fun iend => check (iend = 0x0b)) d u str' ↔
      Runs (Parse.get8 mem) d 0x0b str' := by
    simp only [runs_bind, runs_check]
    refine ⟨?_, ?_⟩
    · rintro ⟨_, _, h, rfl, rfl⟩
      exact h
    · exact fun h => ⟨_, _, h, rfl, rfl⟩
  rw [fwModuleParseExpr, runs_bind]
  refine exists_congr fun literal => exists_congr fun d => ?_
  simp only [exists_and_left]
  refine and_congr_right fun _ => ?_
  rw [fwExprImm]
  generalize (Parse.get8 mem >>= fun iend => check (iend = 0x0b)) = rest at hend
  split_ifs
  all_goals simp only [runs_bind, runs_pure, runs_fail, hend]
  all_goals grind

/-! ## What is passed over

The reader of numbers reads the immediate as some number, not always as the one that was encoded,
and the number is dropped. -/

/-- A byte. -/
theorem readsAs_get8 (b : UInt8) : ReadsAs mem (Parse.get8 mem) [b] b := by
  intro str hm hlast
  rw [List.length_singleton] at hlast ⊢
  exact runs_get8.mpr ⟨by omega, hm.1.symm, rfl⟩

/-- A value that is read and dropped. -/
theorem readsAs_dropped {α : Type} {m : Parse α} {bs : List UInt8} {P : α → Prop}
    (h : ReadsTo mem m bs P) : ReadsAs mem (do let _ ← m) bs ⟨⟩ := by
  intro str hm hlast
  obtain ⟨a, ha, -⟩ := h str hm hlast
  exact runs_bind_pure.mpr ⟨a, ha, rfl⟩

/-- A signed number is read as something, whatever the reader makes of its bits. -/
theorem readsTo_gets {maxbit : ℕ} {bs : List UInt8} (hmax : (maxbit + 7 - 1) / 7 ≤ 10)
    (hbs : Encoding ((maxbit + 7 - 1) / 7) bs) :
    ReadsTo mem (Parse.ofLeb (fwStrLebGets mem · maxbit)) bs fun _ => True := by
  intro str hm hlast
  have hpos := hbs.1.length_pos
  have hrun := (tracedGets_of_encoding hbs hmax hm (by omega)).1
  rw [Runs, tracedGets_res] at hrun
  exact ⟨_, hrun, trivial⟩

theorem readsTo_geti32 {bs : List UInt8} (hbs : Encoding ((32 + 7 - 1) / 7) bs) :
    ReadsTo mem (fwStrLebGeti32 mem) bs fun _ => True := by
  intro str hm hlast
  obtain ⟨v, hv, -⟩ := readsTo_gets (by decide) hbs str hm hlast
  exact ⟨_, runs_bind_pure.mpr ⟨v, hv, rfl⟩, trivial⟩

theorem readsAs_pass {n : ℕ} {bs : List UInt8} (hlen : bs.length = n) :
    ReadsAs mem (fwStrPass n) bs ⟨⟩ :=
  hlen ▸ ReadsAs.pass bs

/-- What may stand behind the literal is passed over. -/
theorem readsAs_exprImm {literal : UInt8} {imm : List UInt8} (h : ExprImm literal imm) :
    ReadsAs mem (fwExprImm mem literal) imm ⟨⟩ := by
  cases h with
  | i32Const h => exact readsAs_dropped (readsTo_geti32 h)
  | i64Const h => exact readsAs_dropped (readsTo_gets (by decide) h)
  | f32Const h => exact readsAs_pass h
  | f64Const h => exact readsAs_pass h
  | globalGet h => exact readsAs_dropped (readsTo_geti32 h)

/-- The bytes of a constant expression are passed over, whatever follows them. -/
theorem readsAs_exprBytes {bs : List UInt8} (h : ExprBytes bs) :
    ReadsAs mem (fwModuleParseExpr mem) bs ⟨⟩ := by
  obtain ⟨literal, imm, himm, rfl⟩ := h
  intro str hm hlast
  have hread := (readsAs_get8 literal).bind (f := fun literal => do
    fwExprImm mem literal
    Parse.get8 mem) ((readsAs_exprImm himm).bind (readsAs_get8 0x0b)) str hm hlast
  simp only [runs_bind] at hread
  obtain ⟨literal, d, hlit, _, d', himm, hend⟩ := hread
  exact runs_parseExpr.mpr ⟨literal, d, d', hlit, himm, hend⟩

/-- And so are its encodings, whatever follows them. -/
theorem readsAs_parseExpr {e : ConstExpr} {bs : List UInt8} (h : e.Encodes bs) :
    ReadsAs mem (fwModuleParseExpr mem) bs ⟨⟩ :=
  readsAs_exprBytes h.exprBytes

/-! ## What has been passed over

The other direction starts from a run that returned. Of what the reader of numbers has passed over
it is known that it is a number, or nothing at all behind 256 bytes that all announce another one;
and no such byte is `end`. -/

/-- The bytes from one cursor to another, which has moved over just as many. -/
def Passed (mem : Mem) (bs : List UInt8) (str str' : FwStr) : Prop :=
  Holds mem str.pos bs ∧ str' = ⟨str.pos + bs.length, str.last⟩

theorem passed_bytesAt (str : FwStr) (n : ℕ) :
    Passed mem (bytesAt mem str.pos n) str ⟨str.pos + n, str.last⟩ :=
  ⟨holds_bytesAt .., by rw [length_bytesAt]⟩

/-- A number has been passed over, or the cursor stands where it stood, on a byte that announces
another one. The latter is what is left of a number of 256 bytes. -/
theorem passed_of_gets {w : ℕ} {v : UInt64}
    (h : Runs (Parse.ofLeb (fwStrLebGets mem · w)) str v str') :
    (∃ bs, Encoding ((w + 7 - 1) / 7) bs ∧ Passed mem bs str str') ∨
      str' = str ∧ 0x80 ≤ mem str.pos := by
  have hout := LebReader.gets.read_outcome mem str w
  rw [LebReader.read, runs_ofLeb.mp h] at hout
  cases hout with
  | @short k _ hlt hk hends hshort =>
    rcases Nat.lt_or_ge k 255 with hk | hk
    · have hmod : (k + 1) % 256 = k + 1 := Nat.mod_eq_of_lt (by omega)
      rw [hmod] at hshort ⊢
      exact .inl ⟨bytesAt mem str.pos (k + 1), encoding_bytesAt hends.2 hends.1 hshort,
        passed_bytesAt str (k + 1)⟩
    · -- the counter is 0 behind the last one of 256 bytes
      obtain rfl : k = 255 := by omega
      exact .inr ⟨rfl, hends.2 0 (by decide)⟩

theorem passed_of_geti32 {v : UInt32} (h : Runs (fwStrLebGeti32 mem) str v str') :
    (∃ bs, Encoding 5 bs ∧ Passed mem bs str str') ∨ str' = str ∧ 0x80 ≤ mem str.pos := by
  obtain ⟨_, hrun, -⟩ := runs_bind_pure.mp h
  exact passed_of_gets hrun

theorem passed_of_pass (mem : Mem) {n : ℕ} (h : Runs (fwStrPass n) str ⟨⟩ str') :
    ∃ bs, bs.length = n ∧ Passed mem bs str str' := by
  obtain ⟨-, rfl⟩ := runs_pass.mp h
  exact ⟨bytesAt mem str.pos n, length_bytesAt .., passed_bytesAt str n⟩

theorem passed_of_dropped {α : Type} {m : Parse α} (h : Runs (do let _ ← m) str ⟨⟩ str') :
    ∃ a, Runs m str a str' := by
  obtain ⟨a, ha, -⟩ := runs_bind_pure.mp h
  exact ⟨a, ha⟩

/-- What has been passed over behind the literal. -/
theorem passed_of_exprImm {literal : UInt8} (h : Runs (fwExprImm mem literal) str ⟨⟩ str') :
    (∃ imm, ExprImm literal imm ∧ Passed mem imm str str') ∨ str' = str ∧ 0x80 ≤ mem str.pos := by
  rw [fwExprImm] at h
  split_ifs at h with h41 h42 h43 h44 h23
  · subst h41
    obtain ⟨_, hrun⟩ := passed_of_dropped h
    exact (passed_of_geti32 hrun).imp_left fun ⟨bs, hbs, hpass⟩ => ⟨bs, .i32Const hbs, hpass⟩
  · subst h42
    obtain ⟨_, hrun⟩ := passed_of_dropped h
    exact (passed_of_gets hrun).imp_left fun ⟨bs, hbs, hpass⟩ => ⟨bs, .i64Const hbs, hpass⟩
  · subst h43
    obtain ⟨bs, hlen, hpass⟩ := passed_of_pass mem h
    exact .inl ⟨bs, .f32Const hlen, hpass⟩
  · subst h44
    obtain ⟨bs, hlen, hpass⟩ := passed_of_pass mem h
    exact .inl ⟨bs, .f64Const hlen, hpass⟩
  · subst h23
    obtain ⟨_, hrun⟩ := passed_of_dropped h
    exact (passed_of_geti32 hrun).imp_left fun ⟨bs, hbs, hpass⟩ => ⟨bs, .globalGet hbs, hpass⟩
  · exact absurd h (by simp)

/-- Only a constant expression has been passed over, and the cursor is not behind the end. -/
theorem passed_of_parseExpr (h : Runs (fwModuleParseExpr mem) str ⟨⟩ str') :
    ∃ bs, ExprBytes bs ∧ Passed mem bs str str' ∧ str'.pos ≤ str.last := by
  obtain ⟨literal, d, d', hlit, himm, hend⟩ := runs_parseExpr.mp h
  obtain ⟨-, rfl, rfl⟩ := runs_get8.mp hlit
  obtain ⟨hlt, hbyte, rfl⟩ := runs_get8.mp hend
  rcases passed_of_exprImm himm with ⟨imm, hbytes, hm, rfl⟩ | ⟨rfl, hhigh⟩
  · refine ⟨[mem str.pos] ++ (imm ++ [0x0b]), ⟨_, imm, hbytes, rfl⟩, ⟨⟨rfl, ?_⟩, ?_⟩, hlt⟩
    · exact (holds_append mem _ imm _).mpr ⟨hm, hbyte.symm, trivial⟩
    · simp only [List.length_append, List.length_singleton, FwStr.mk.injEq, and_true]
      omega
  · -- no `end` where the number starts
    exact absurd (hbyte ▸ hhigh) (by decide)

/-- `fw_module_parse_expr` returns `FW_OK` if and only if a constant expression stands at the
cursor; the cursor stops behind it, and not behind the end. The memory is any, and so is the cursor,
which may be at the end or behind it. -/
theorem parseExpr_exact (mem : Mem) (str str' : FwStr) :
    Runs (fwModuleParseExpr mem) str ⟨⟩ str' ↔
      ∃ bs, ExprBytes bs ∧ Holds mem str.pos bs ∧ str.pos + bs.length ≤ str.last ∧
        str' = ⟨str.pos + bs.length, str.last⟩ := by
  refine ⟨fun h => ?_, ?_⟩
  · obtain ⟨bs, hbs, ⟨hm, rfl⟩, hle⟩ := passed_of_parseExpr h
    exact ⟨bs, hbs, hm, hle, rfl⟩
  · rintro ⟨bs, hbs, hm, hlast, rfl⟩
    exact readsAs_exprBytes hbs str hm hlast

end FastWasm
