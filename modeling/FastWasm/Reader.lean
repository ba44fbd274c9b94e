import FastWasm.Fallible
import FastWasm.Module
import Mathlib.Data.List.Forall2

/-!
# Reading the file (`core/fw_str.h`)

The readers of the loader as computations over the cursor they move. A macro that jumps to `str_err`
is a computation that fails. `fw_make_str` copies bytes before anything compares their number with
the bytes that are left, so it is an event.

Two things are said of a reader throughout. One is what a successful read has found, an equivalence
for each reader, which the proofs about arbitrary bytes use. The other is that a reader gets back
what was written (`ReadsAs`, `ReadsTo`): the bytes may stand anywhere and anything may follow them,
so that such facts are put together by appending encodings.
-/

namespace FastWasm

open Logged (Fallible Part)
open Logged.Fallible

/-- What the loader reads beside the bytes its cursor passes over. Only `fw_make_str` does, which
takes a pointer and a length and compares the two with nothing. -/
inductive LoadEvent where
  /-- `fw_make_str` copies `size` bytes from `pos` on -/
  | makeStr (pos size : ℕ)
  deriving DecidableEq, Repr

/-- A reader: a computation over a cursor, which may fail. When it fails the cursor stays where the
failing step has found it, and nothing is read from there any more. -/
abbrev Parse (α : Type) : Type := Fallible LoadEvent Halt FwStr α

/-! ## The readers

Each macro of `fw_str.h` that takes bytes off a cursor. -/

/-- `fw_str_get8`: the next byte, or a failure at the end. -/
def Parse.get8 (mem : Mem) : Parse UInt8 := fun str =>
  match fwStrGet8 mem str with
  | none => ⟨[], .ok (none, str)⟩
  | some (b, str') => ⟨[], .ok (some b, str')⟩

/-- The four bytes at an address, the first one lowest. The macro puts them together with shifts of
8, 16 and 24. -/
def wordAt (mem : Mem) (pos : ℕ) : UInt32 :=
  (mem (pos + 3)).toUInt32 <<< 24 ||| (mem (pos + 2)).toUInt32 <<< 16 |||
    (mem (pos + 1)).toUInt32 <<< 8 ||| (mem pos).toUInt32

/-- `fw_str_get32`: four bytes, if so many are left. It is used for the two words at the front of
the file only. -/
def fwStrGet32 (mem : Mem) : Parse UInt32 := fun str =>
  if str.pos + 4 > str.last then ⟨[], .ok (none, str)⟩
  else ⟨[], .ok (some (wordAt mem str.pos), { str with pos := str.pos + 4 })⟩

/-- `fw_str_pass`, which compares the size with the bytes that are left and then moves the cursor.
Most of the loader is in bounds because it passes bytes over like this before it uses them. -/
def fwStrPass (size : ℕ) : Parse PUnit := fun str =>
  if str.pos + size > str.last then ⟨[], .ok (none, str)⟩
  else ⟨[], .ok (some ⟨⟩, { str with pos := str.pos + size })⟩

/-- A LEB128 read, as a reader. Its three outcomes are a value, a failure and a halt. -/
def Parse.ofLeb (read : FwStr → LebRead) : Parse UInt64 := fun str =>
  match read str with
  | .hang => ⟨[], .error .hang⟩
  | .strErr => ⟨[], .ok (none, str)⟩
  | .got val str' => ⟨[], .ok (some val, str')⟩

/-- `fw_str_leb_getu32`: the low 32 bits of what was read. -/
def fwStrLebGetu32 (mem : Mem) : Parse UInt32 := do
  let val ← Parse.ofLeb (fwStrLebGetu mem · 32)
  pure val.toUInt32

/-- `fw_str_leb_getu8`: the low 8 bits of what was read, from at most two bytes. -/
def fwStrLebGetu8 (mem : Mem) : Parse UInt8 := do
  let val ← Parse.ofLeb (fwStrLebGetu mem · 8)
  pure val.toUInt8

/-- `- (1 << shift)` on an `int`, converted to the 64-bit type of the result. -/
def intNegShl (shift : UInt8) : UInt64 :=
  (-((1 : UInt32) <<< shift.toUInt32)).toInt32.toInt64.toUInt64

/-- `fw_str_leb_gets`: the rounds of `fw_str_leb_getu`, which add 7 to the shift count each, and
the sign bit of the last byte. -/
def fwStrLebGets (mem : Mem) (str : FwStr) (maxbit : ℕ) : LebRead :=
  if str.pos ≥ str.last then .strErr
  else
    match fwStrLebGetuRounds mem str.pos 256 0 0 0 with
    | none => .hang
    | some (round, res) =>
      let shift := round * 7
      let byte := mem (str.pos + (round - 1).toNat)
      if round.toNat > (maxbit + 7 - 1) / 7 then .strErr
      else
        let res := if byte &&& 0x40 ≠ 0 then res ||| intNegShl shift else res
        .got res { str with pos := str.pos + round.toNat }

/-- `fw_str_leb_geti32`, which is `fw_str_leb_gets32`: an integer without a sign is read as one with
a sign, as the format has it. -/
def fwStrLebGeti32 (mem : Mem) : Parse UInt32 := do
  let val ← Parse.ofLeb (fwStrLebGets mem · 32)
  pure val.toUInt32

/-- `fw_str_leb_geti64`, which is `fw_str_leb_gets64`. -/
def fwStrLebGeti64 (mem : Mem) : Parse UInt64 := Parse.ofLeb (fwStrLebGets mem · 64)

/-- `fw_make_str` of the next `size` bytes; it does not move the cursor. The event has the bytes
that are copied, and whether they are inside is asked of the log. -/
def fwMakeStr (mem : Mem) (size : ℕ) : Parse (List UInt8) := do
  let str ← get
  emit (.makeStr str.pos size)
  pure (bytesAt mem str.pos size)

/-- Put the cursor somewhere else, as the source does by assigning `pos`. The end stays. -/
def Parse.seek (pos : ℕ) : Parse PUnit := modify fun str => { str with pos := pos }

/-- All bytes are consumed: the cursor is at the end, and not behind it either. Almost every handler
ends with this test. -/
def Parse.consumed : Parse PUnit := do
  let str ← get
  check (str.pos = str.last)

/-! ## What a successful read says

One equivalence for each reader, from which the others follow by sequencing. -/

section Runs

variable {mem : Mem} {str str' : FwStr}

@[simp] theorem runs_get8 {b : UInt8} :
    Runs (Parse.get8 mem) str b str' ↔
      str.pos < str.last ∧ b = mem str.pos ∧ str' = ⟨str.pos + 1, str.last⟩ := by
  rw [Runs, Parse.get8]
  rcases Nat.lt_or_ge str.pos str.last with hlt | hge
  · rw [fwStrGet8_of_lt hlt]
    simp [hlt, eq_comm]
  · rw [fwStrGet8, if_pos (by omega)]
    simp [Nat.not_lt.mpr hge]

@[simp] theorem runs_get32 {n : UInt32} :
    Runs (fwStrGet32 mem) str n str' ↔
      str.pos + 4 ≤ str.last ∧
        n = wordAt mem str.pos ∧ str' = ⟨str.pos + 4, str.last⟩ := by
  rw [Runs, fwStrGet32]
  by_cases h : str.pos + 4 > str.last
  · simp [h, Nat.not_le.mpr h]
  · simp [h, Nat.not_lt.mp h, eq_comm]

@[simp] theorem runs_pass {size : ℕ} {u : PUnit} :
    Runs (fwStrPass size) str u str' ↔
      str.pos + size ≤ str.last ∧ str' = ⟨str.pos + size, str.last⟩ := by
  rw [Runs, fwStrPass]
  by_cases h : str.pos + size > str.last
  · simp [h, Nat.not_le.mpr h]
  · simp [h, Nat.not_lt.mp h, eq_comm]

theorem runs_ofLeb {read : FwStr → LebRead} {v : UInt64} :
    Runs (Parse.ofLeb read) str v str' ↔ read str = .got v str' := by
  rw [Runs, Parse.ofLeb]
  cases read str <;> simp

theorem runs_getu32 {n : UInt32} :
    Runs (fwStrLebGetu32 mem) str n str' ↔
      ∃ v, fwStrLebGetu mem str 32 = .got v str' ∧ n = v.toUInt32 :=
  runs_bind_pure.trans (exists_congr fun _ => and_congr_left fun _ => runs_ofLeb)

theorem runs_getu8 {b : UInt8} :
    Runs (fwStrLebGetu8 mem) str b str' ↔
      ∃ v, fwStrLebGetu mem str 8 = .got v str' ∧ b = v.toUInt8 :=
  runs_bind_pure.trans (exists_congr fun _ => and_congr_left fun _ => runs_ofLeb)

@[simp] theorem runs_makeStr {size : ℕ} {bs : List UInt8} :
    Runs (fwMakeStr mem size) str bs str' ↔ bs = bytesAt mem str.pos size ∧ str' = str := by
  simp [fwMakeStr, and_comm]

@[simp] theorem runs_seek {pos : ℕ} {u : PUnit} :
    Runs (Parse.seek pos) str u str' ↔ str' = ⟨pos, str.last⟩ := by
  simp [Parse.seek]

@[simp] theorem runs_consumed {u : PUnit} :
    Runs Parse.consumed str u str' ↔ str.pos = str.last ∧ str' = str := by
  simp [Parse.consumed, and_comm]

@[simp] theorem halts_get8 {h : Halt} : Halts (Parse.get8 mem) str h ↔ False := by
  rw [Halts, Parse.get8]
  cases fwStrGet8 mem str <;> simp

/-- The only halt of a number is the endless loop, over bytes that all announce another one. -/
theorem halts_getu32 {h : Halt} (hh : Halts (fwStrLebGetu32 mem) str h) : h = .hang := by
  rw [fwStrLebGetu32] at hh
  simp only [halts_bind, halts_pure, and_false, exists_false, or_false] at hh
  rw [Halts, Parse.ofLeb] at hh
  cases hr : fwStrLebGetu mem str 32 <;> simp only [hr] at hh <;> cases hh
  rfl

end Runs

/-! ## Readers only move forward

Bytes that were passed over are not looked at again, and the end of the bytes is fixed. -/

/-- A reader that keeps the end of the bytes and never moves back. All readers of one number or byte
are such, and so is what is built from them without `seek`. -/
def Forward {α : Type} (m : Parse α) : Prop :=
  ∀ ⦃str a str'⦄, Runs m str a str' → str.pos ≤ str'.pos ∧ str'.last = str.last

namespace Forward

variable {mem : Mem} {α β : Type}

theorem pure (a : α) : Forward (pure a : Parse α) := by
  intro str _ _ h
  obtain ⟨-, rfl⟩ := runs_pure.mp h
  exact ⟨le_rfl, rfl⟩

theorem bind {m : Parse α} {f : α → Parse β} (hm : Forward m) (hf : ∀ a, Forward (f a)) :
    Forward (m >>= f) := by
  intro str b str' h
  obtain ⟨a, str₁, h₁, h₂⟩ := runs_bind.mp h
  have := hm h₁
  have := hf a h₂
  exact ⟨by omega, by rw [(hf a h₂).2, (hm h₁).2]⟩

theorem ite {c : Prop} [Decidable c] {m m' : Parse α} (hm : Forward m) (hm' : Forward m') :
    Forward (if c then m else m') := by
  split
  · exact hm
  · exact hm'

theorem pass (size : ℕ) : Forward (fwStrPass size) := by
  intro str u str' h
  obtain ⟨-, rfl⟩ := runs_pass.mp h
  exact ⟨Nat.le_add_right _ _, rfl⟩

theorem getu32 : Forward (fwStrLebGetu32 mem) := by
  intro str n str' h
  obtain ⟨v, h, -⟩ := runs_getu32.mp h
  obtain ⟨-, hlast, k, -, -, -, hpos, -⟩ := getu_eq_got h
  exact ⟨by omega, hlast⟩

theorem getu8 : Forward (fwStrLebGetu8 mem) := by
  intro str n str' h
  obtain ⟨v, h, -⟩ := runs_getu8.mp h
  obtain ⟨-, hlast, k, -, -, -, hpos, -⟩ := getu_eq_got h
  exact ⟨by omega, hlast⟩

theorem collect {m : Parse α} (hm : Forward m) (n : ℕ) : Forward (collect m n) := by
  intro str as str' h
  obtain ⟨-, h⟩ := runs_collect.mp h
  refine h.induct (P := fun d => str.pos ≤ d.pos ∧ d.last = str.last) ?_ ⟨le_rfl, rfl⟩
  rintro d a d' hd ⟨hpos, hlast⟩
  have := hm hd
  exact ⟨by omega, by rw [this.2, hlast]⟩

end Forward

/-! ## Reading what was written

A reader and the bytes that it is for. The bytes are at the cursor, and there may be more behind
them, up to the end of the window. -/

/-- `m` reads `bs` as `a`, wherever the bytes stand and whatever follows them. -/
def ReadsAs {α : Type} (mem : Mem) (m : Parse α) (bs : List UInt8) (a : α) : Prop :=
  ∀ str : FwStr, Holds mem str.pos bs → str.pos + bs.length ≤ str.last →
    Runs m str a ⟨str.pos + bs.length, str.last⟩

namespace ReadsAs

variable {mem : Mem} {α β : Type}

theorem pure (a : α) : ReadsAs mem (pure a) [] a := by
  intro str _ _
  simp

theorem bind {m : Parse α} {f : α → Parse β} {bs bs' : List UInt8} {a : α} {b : β}
    (hm : ReadsAs mem m bs a) (hf : ReadsAs mem (f a) bs' b) :
    ReadsAs mem (m >>= f) (bs ++ bs') b := by
  intro str h hlast
  obtain ⟨h₁, h₂⟩ := (holds_append ..).mp h
  rw [List.length_append] at hlast ⊢
  have h₁ := hm str h₁ (by omega)
  have h₂ := hf ⟨str.pos + bs.length, str.last⟩ h₂ (by simp only; omega)
  rw [runs_bind]
  refine ⟨a, _, h₁, ?_⟩
  rwa [Nat.add_assoc] at h₂

/-- A last step that reads nothing. -/
theorem bind_pure {m : Parse α} {bs : List UInt8} {a : α} (hm : ReadsAs mem m bs a) (f : α → β) :
    ReadsAs mem (do return f (← m)) bs (f a) := by
  have h := hm.bind (f := fun a => (Pure.pure (f a) : Parse β)) (ReadsAs.pure (f a))
  rwa [List.append_nil] at h

/-- The bytes from the cursor on, passed over. -/
theorem pass (bs : List UInt8) : ReadsAs mem (fwStrPass bs.length) bs ⟨⟩ := by
  intro str _ hlast
  exact runs_pass.mpr ⟨hlast, rfl⟩

theorem getu32 {n : ℕ} {bs : List UInt8} (h : Leb128.Spells 32 n bs) :
    ReadsAs mem (fwStrLebGetu32 mem) bs (UInt32.ofNat n) := by
  obtain ⟨hlt, hbs, rfl⟩ := h
  intro str hm hlast
  have hpos := hbs.1.length_pos
  refine runs_getu32.mpr ⟨_, getu_of_encoding str hbs (by decide) hm (by omega), ?_⟩
  apply UInt32.toNat_inj.mp
  have hlen := hbs.2
  rw [toNat_lebBits (by simp only [UInt8.reduceToNat]; omega) (by decide), UInt32.toNat_ofNat']
  simp

theorem getu32_toNat {n : UInt32} {bs : List UInt8} (h : Leb128.Spells 32 n.toNat bs) :
    ReadsAs mem (fwStrLebGetu32 mem) bs n := by
  rw [← UInt32.ofNat_toNat (x := n)]
  exact getu32 h

/-- A number below 128 in one byte. -/
theorem getu8 {b : UInt8} (h : b < 0x80) : ReadsAs mem (fwStrLebGetu8 mem) [b] b := by
  intro str hm hlast
  rw [List.length_singleton] at hlast
  have hb : Leb128.Encoding ((8 + 7 - 1) / 7) [b] := ⟨h, by simp⟩
  refine runs_getu8.mpr ⟨_, getu_of_encoding str hb (by decide) hm (by omega), ?_⟩
  apply UInt8.toNat_inj.mp
  have hval : (lebBits [b] 0 0).toUInt32.toNat = _ := toNat_lebBits (by simp) (by simp)
  have hlt : b.toNat < 128 := UInt8.lt_iff_toNat_lt.mp h
  simp only [Leb128.value, UInt64.toNat_toUInt32] at hval
  rw [UInt64.toNat_toUInt8]
  simp at hval
  omega

end ReadsAs

/-- `m` reads `bs` as something in `P`, wherever the bytes stand and whatever follows them. -/
def ReadsTo {α : Type} (mem : Mem) (m : Parse α) (bs : List UInt8) (P : α → Prop) : Prop :=
  ∀ str : FwStr, Holds mem str.pos bs → str.pos + bs.length ≤ str.last →
    ∃ a, Runs m str a ⟨str.pos + bs.length, str.last⟩ ∧ P a

/-- Encodings one behind the other are read one after the other. -/
theorem reads_of_concat {mem : Mem} {α β : Type} {m : Parse β} {E : α → List UInt8 → Prop}
    {P : α → β → Prop} {as : List α} {bs : List UInt8}
    (h : ∀ a ∈ as, ∀ bs, E a bs → ReadsTo mem m bs (P a)) (hc : Leb128.Concat E as bs) :
    ∀ str : FwStr, Holds mem str.pos bs → str.pos + bs.length ≤ str.last →
      ∃ vs, Reads m str vs ⟨str.pos + bs.length, str.last⟩ ∧ List.Forall₂ P as vs := by
  induction hc with
  | nil => exact fun _ _ _ => ⟨[], .nil _, .nil⟩
  | @cons a as bs bs' head tail ih =>
    intro str hm hlast
    obtain ⟨hm, hm'⟩ := (holds_append ..).mp hm
    rw [List.length_append] at hlast ⊢
    obtain ⟨h, h'⟩ := List.forall_mem_cons.mp h
    obtain ⟨v, hv, hP⟩ := h bs head str hm (by omega)
    obtain ⟨vs, hvs, hPs⟩ := ih h' ⟨str.pos + bs.length, str.last⟩ hm'
      (by simp only; omega)
    rw [Nat.add_assoc] at hvs
    exact ⟨v :: vs, .cons hv hvs, .cons hP hPs⟩

/-- The values themselves, when each encoding is read as what its value stands for. -/
theorem reads_map_of_concat {mem : Mem} {α β : Type} {m : Parse β} {E : α → List UInt8 → Prop}
    {as : List α} {bs : List UInt8} (g : α → β)
    (h : ∀ a ∈ as, ∀ bs, E a bs → ReadsAs mem m bs (g a))
    (hc : Leb128.Concat E as bs) (str : FwStr) (hm : Holds mem str.pos bs)
    (hlast : str.pos + bs.length ≤ str.last) :
    Reads m str (as.map g) ⟨str.pos + bs.length, str.last⟩ := by
  obtain ⟨vs, hvs, heq⟩ := reads_of_concat (P := fun a v => g a = v)
    (fun a ha bs hE str hm hlast => ⟨g a, h a ha bs hE str hm hlast, rfl⟩) hc str hm hlast
  rw [← List.forall₂_map_left_iff (R := Eq), List.forall₂_eq_eq_eq] at heq
  rwa [heq]

/-! ## Payloads

The bytes of a section, as a handler finds them. -/

/-- The bytes of the section are `bs`, from its cursor up to its end. -/
structure Payload (mem : Mem) (data : FwStr) (bs : List UInt8) : Prop where
  /-- they stand from the cursor on -/
  holds : Holds mem data.pos bs
  /-- the section ends behind them -/
  last : data.last = data.pos + bs.length

section

variable {mem : Mem} {α : Type} {E : α → List UInt8 → Prop} {as : List α} {bs : List UInt8}

/-- Of a vector the number is read first; the encodings of the values are the payload that is
left. -/
theorem Payload.count {data : FwStr} (h : Payload mem data bs) (hbs : Leb128.Vec E as bs) :
    ∃ d es, Runs (fwStrLebGetu32 mem) data (UInt32.ofNat as.length) d ∧
      (UInt32.ofNat as.length).toNat = as.length ∧ Leb128.Concat E as es ∧ Payload mem d es := by
  obtain ⟨cs, es, hcs, hes, rfl⟩ := hbs
  obtain ⟨hm, hm'⟩ := (holds_append ..).mp h.holds
  have hlast := h.last
  rw [List.length_append, ← Nat.add_assoc] at hlast
  have hle : data.pos + cs.length ≤ data.last := (Nat.le_add_right ..).trans_eq hlast.symm
  exact ⟨_, es, ReadsAs.getu32 hcs data hm hle, Nat.mod_eq_of_lt hcs.1, hes, hm', hlast⟩

theorem eq_nil_of_count (hlen : (UInt32.ofNat as.length).toNat = as.length)
    (h : UInt32.ofNat as.length = 0) : as = [] := by
  rw [h] at hlen
  exact List.length_eq_zero_iff.mp hlen.symm

end

end FastWasm
