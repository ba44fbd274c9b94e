import Mathlib.Data.List.Forall2
import Mathlib.Data.List.Induction
import Mathlib.Data.Nat.Bitwise
import Mathlib.Tactic.Ring

/-!
# LEB128 byte strings

Little-endian base-128 numbers as byte strings, with no decoder in sight: which byte strings are
complete numbers (`Terminated`, `Encoding`), and which number they spell (`value`, and `signedValue`
in two's complement). A byte with its high bit set announces another byte.

A number has many encodings, for it may be padded with groups of zeros, or of ones when it is
negative. So nothing here is a function from numbers to bytes. That some bytes encode `n` is a
relation (`Spells`, `SignedSpells`), and a statement about every encoding of a number quantifies
over it. The relations are bounded by the number of bytes that the format allows for a number of `w`
bits.

Sequences of encoded values (`Concat`) and vectors with their count in front (`Vec`) are over any
relation between values and bytes, so that the entries of a section are stated with the same two
words.
-/

namespace Leb128

/-- A complete number: every byte but the last announces another one. There is at least one byte. -/
def Terminated : List UInt8 → Prop
  | [] => False
  | [b] => b < 0x80
  | b :: b' :: bs => 0x80 ≤ b ∧ Terminated (b' :: bs)

instance decidableTerminated : (bs : List UInt8) → Decidable (Terminated bs)
  | [] => isFalse not_false
  | [b] => inferInstanceAs (Decidable (b < 0x80))
  | _ :: b' :: bs =>
    have := decidableTerminated (b' :: bs)
    inferInstanceAs (Decidable (_ ∧ _))

/-- A complete number of at most `n` bytes, whatever it is worth. -/
def Encoding (n : ℕ) (bs : List UInt8) : Prop := Terminated bs ∧ bs.length ≤ n

instance (n : ℕ) (bs : List UInt8) : Decidable (Encoding n bs) :=
  inferInstanceAs (Decidable (_ ∧ _))

/-- The number a byte string spells: seven bits a byte, least significant first. The high bits do
not count. -/
def value : List UInt8 → ℕ
  | [] => 0
  | b :: bs => b.toNat % 128 + 128 * value bs

/-- The byte string spells `n`, a number of `w` bits, in no more bytes than those take. It may be
padded up to that length, as the format allows. -/
def Spells (w n : ℕ) (bs : List UInt8) : Prop :=
  n < 2 ^ w ∧ Encoding ((w + 7 - 1) / 7) bs ∧ value bs = n

instance (w n : ℕ) (bs : List UInt8) : Decidable (Spells w n bs) :=
  inferInstanceAs (Decidable (_ ∧ _))

/-- The signed number a byte string spells: two's complement, the sign in the seventh bit of the
last byte. -/
def signedValue : List UInt8 → ℤ
  | [] => 0
  | [b] => if b.toNat % 128 < 64 then (b.toNat % 128 : ℕ) else (b.toNat % 128 : ℕ) - 128
  | b :: b' :: bs => (b.toNat % 128 : ℕ) + 128 * signedValue (b' :: bs)

/-- The byte string spells `n`, a signed number of `w` bits, in no more bytes than those take; again
it may be padded, with copies of the sign. -/
def SignedSpells (w : ℕ) (n : ℤ) (bs : List UInt8) : Prop :=
  (-2 ^ (w - 1) ≤ n ∧ n < 2 ^ (w - 1)) ∧ Encoding ((w + 7 - 1) / 7) bs ∧ signedValue bs = n

instance (w : ℕ) (n : ℤ) (bs : List UInt8) : Decidable (SignedSpells w n bs) :=
  inferInstanceAs (Decidable (_ ∧ _))

theorem Terminated.ne_nil {bs : List UInt8} (h : Terminated bs) : bs ≠ [] := by
  rintro rfl
  exact h

theorem Terminated.length_pos {bs : List UInt8} (h : Terminated bs) : 0 < bs.length :=
  List.length_pos_iff.mpr h.ne_nil

theorem terminated_cons {b : UInt8} {bs : List UInt8} (hbs : bs ≠ []) :
    Terminated (b :: bs) ↔ 0x80 ≤ b ∧ Terminated bs := by
  cases bs with
  | nil => exact absurd rfl hbs
  | cons b' bs => exact Iff.rfl

theorem value_lt (bs : List UInt8) : value bs < 2 ^ (7 * bs.length) := by
  induction bs with
  | nil => exact Nat.one_pos
  | cons b bs ih =>
    rw [value, List.length_cons, Nat.mul_succ, pow_add]
    omega

/-- The digits of a number in two parts, the second one above the first. -/
theorem value_append (bs bs' : List UInt8) :
    value (bs ++ bs') = value bs + 2 ^ (7 * bs.length) * value bs' := by
  induction bs with
  | nil => simp [value]
  | cons b bs ih =>
    rw [List.cons_append, value, ih, value, List.length_cons, Nat.mul_succ, pow_add]
    ring

/-- Byte strings that differ in nothing but high bits, that is in where the number ends. -/
def SameDigits (bs bs' : List UInt8) : Prop :=
  List.Forall₂ (fun b b' => b.toNat % 128 = b'.toNat % 128) bs bs'

/-- The digits of a number are determined by its value and their number: two encodings of one length
and one value have the same digits. -/
theorem digits_inj {bs bs' : List UInt8} (hlen : bs.length = bs'.length)
    (hval : value bs = value bs') : SameDigits bs bs' := by
  induction bs generalizing bs' with
  | nil =>
    obtain rfl := List.length_eq_zero_iff.mp hlen.symm
    exact .nil
  | cons b bs ih =>
    cases bs' with
    | nil => simp at hlen
    | cons b' bs' =>
      rw [value, value] at hval
      exact .cons (by omega) (ih (Nat.succ.inj hlen) (by omega))

/-! ## Signed numbers

In two's complement the last group has the sign in its highest bit, and counts as a number with a
sign. The others are as in an unsigned number. -/

theorem signedValue_cons {b : UInt8} {bs : List UInt8} (hbs : bs ≠ []) :
    signedValue (b :: bs) = (b.toNat % 128 : ℕ) + 128 * signedValue bs := by
  cases bs with
  | nil => exact absurd rfl hbs
  | cons b' bs => rfl

/-- Where the signed and the unsigned number differ, and within which bounds the signed one is. They
differ by the power of two behind the last digit, exactly when the signed one is negative. -/
theorem signedValue_eq {bs : List UInt8} (hbs : bs ≠ []) :
    (value bs : ℤ) = signedValue bs + (if signedValue bs < 0 then 2 ^ (7 * bs.length) else 0) ∧
      -2 ^ (7 * bs.length) ≤ 2 * signedValue bs ∧ 2 * signedValue bs < 2 ^ (7 * bs.length) := by
  induction bs, hbs using List.recNeNil with
  | singleton b =>
    simp only [signedValue, value, List.length_singleton, Nat.mul_one, Nat.mul_zero, Nat.add_zero]
    split <;> split <;> omega
  | cons b bs hne ih =>
    obtain ⟨hval, hlow, hhigh⟩ := ih
    have hpow : (2 : ℤ) ^ (7 * (b :: bs).length) = 128 * 2 ^ (7 * bs.length) := by
      rw [List.length_cons, Nat.mul_succ, pow_add]
      exact mul_comm _ _
    have heven : (2 : ℤ) ∣ 2 ^ (7 * bs.length) :=
      dvd_pow_self 2 (by have := List.length_pos_iff.mpr hne; omega)
    rw [value, signedValue_cons hne, hpow]
    push_cast at *
    rw [hval]
    split <;> split <;> omega

/-- The sign is the seventh bit of the last byte, whatever the bytes before it are. -/
theorem signedValue_neg_iff {bs : List UInt8} (hbs : bs ≠ []) :
    signedValue bs < 0 ↔ 64 ≤ (bs.getLast hbs).toNat % 128 := by
  induction bs, hbs using List.recNeNil with
  | singleton b =>
    rw [signedValue, List.getLast_singleton]
    split <;> omega
  | cons b bs hne ih =>
    rw [List.getLast_cons hne, ← ih, signedValue_cons hne]
    omega

/-- A signed number that is a digit: all its digits are the same. -/
theorem digits_of_signedValue {bs : List UInt8} :
    (signedValue bs = 0 → ∀ b ∈ bs, b.toNat % 128 = 0) ∧
      (signedValue bs = -1 → ∀ b ∈ bs, b.toNat % 128 = 127) := by
  induction bs with
  | nil => exact ⟨fun _ => List.forall_mem_nil _, fun _ => List.forall_mem_nil _⟩
  | cons b bs ih =>
    by_cases hne : bs = []
    · subst hne
      simp only [signedValue, List.forall_mem_singleton]
      split <;> omega
    · rw [signedValue_cons hne, List.forall_mem_cons, List.forall_mem_cons]
      exact ⟨fun h => ⟨by omega, ih.1 (by omega)⟩, fun h => ⟨by omega, ih.2 (by omega)⟩⟩

/-- The digits of a number in two parts. -/
theorem signedValue_append {bs bs' : List UInt8} (hbs' : bs' ≠ []) :
    signedValue (bs ++ bs') = value bs + 2 ^ (7 * bs.length) * signedValue bs' := by
  induction bs with
  | nil => simp [value]
  | cons b bs ih =>
    rw [List.cons_append, signedValue_cons (by simp [hbs']), ih, value, List.length_cons,
      Nat.mul_succ, pow_add]
    push_cast
    ring

/-! ## Padded numbers -/

/-- The number is continued behind its first byte. A reader of such a number cannot mistake its
first byte for all of it. -/
def Long (bs : List UInt8) : Prop := ∃ b bs', bs = b :: bs' ∧ 0x80 ≤ b

theorem Long.append {bs : List UInt8} (h : Long bs) (bs' : List UInt8) : Long (bs ++ bs') := by
  obtain ⟨b, rest, rfl, hb⟩ := h
  exact ⟨b, rest ++ bs', rfl, hb⟩

/-- `v` in `n + 1` bytes: `n` groups with the high bit set, and one without. -/
def pad : ℕ → ℕ → List UInt8
  | 0, v => [UInt8.ofNat (v % 128)]
  | n + 1, v => UInt8.ofNat (128 + v % 128) :: pad n (v / 128)

theorem length_pad : ∀ n v, (pad n v).length = n + 1
  | 0, _ => rfl
  | n + 1, v => congrArg Nat.succ (length_pad n (v / 128))

theorem pad_ne_nil (n v : ℕ) : pad n v ≠ [] :=
  List.ne_nil_of_length_pos (by rw [length_pad]; exact Nat.succ_pos n)

theorem toNat_padByte (v : ℕ) : (UInt8.ofNat (128 + v % 128)).toNat = 128 + v % 128 := by
  have hv : v % 128 < 128 := Nat.mod_lt _ (by decide)
  rw [UInt8.toNat_ofNat', Nat.mod_eq_of_lt (by omega)]

theorem le_padByte (v : ℕ) : 0x80 ≤ UInt8.ofNat (128 + v % 128) := by
  rw [UInt8.le_iff_toNat_le, toNat_padByte]
  exact Nat.le_add_right _ _

theorem terminated_pad : ∀ n v, Terminated (pad n v)
  | 0, v => by
    have hv : v % 128 < 128 := Nat.mod_lt _ (by decide)
    change UInt8.ofNat (v % 128) < 0x80
    rw [UInt8.lt_iff_toNat_lt, UInt8.toNat_ofNat', Nat.mod_eq_of_lt (by omega)]
    exact hv
  | n + 1, v => (terminated_cons (pad_ne_nil n _)).mpr ⟨le_padByte v, terminated_pad n _⟩

theorem value_pad : ∀ n v, v < 2 ^ (7 * (n + 1)) → value (pad n v) = v
  | 0, v, h => by
    have hv : v < 128 := h
    rw [pad, value, value, UInt8.toNat_ofNat']
    omega
  | n + 1, v, h => by
    have hsplit : 2 ^ (7 * (n + 1 + 1)) = 128 * 2 ^ (7 * (n + 1)) := by
      rw [Nat.mul_succ, pow_add]
      exact mul_comm _ _
    have hdiv : v / 128 < 2 ^ (7 * (n + 1)) := Nat.div_lt_of_lt_mul (hsplit ▸ h)
    rw [pad, value, value_pad n _ hdiv, toNat_padByte]
    omega

/-- Every number of 32 bits can be spelled in five bytes, the first of which is then continued. -/
theorem exists_long {n : ℕ} (h : n < 2 ^ 32) : ∃ bs, Spells 32 n bs ∧ Long bs :=
  ⟨pad 4 n, ⟨h, ⟨terminated_pad 4 n, (length_pad 4 n).le⟩,
    value_pad 4 n (lt_of_lt_of_le h (by decide))⟩, _, _, rfl, le_padByte n⟩

/-! ## Sequences

Encodings of values one behind the other, with a number in front or without. The encodings of a
value may be many, so this is a relation. -/

variable {α : Type*} {E : α → List UInt8 → Prop}

/-- The encodings of some values, one behind the other, for any relation `E` between a value and its
bytes. -/
inductive Concat (E : α → List UInt8 → Prop) : List α → List UInt8 → Prop
  /-- no value, no byte -/
  | nil : Concat E [] []
  /-- the first value, then the others -/
  | cons {a : α} {as : List α} {bs bs' : List UInt8} (head : E a bs) (tail : Concat E as bs') :
    Concat E (a :: as) (bs ++ bs')

/-- A vector: the number of values, then their encodings. The number is one of 32 bits in any of its
encodings. -/
def Vec (E : α → List UInt8 → Prop) (as : List α) (bs : List UInt8) : Prop :=
  ∃ cs bs', Spells 32 as.length cs ∧ Concat E as bs' ∧ bs = cs ++ bs'

/-- The encodings of values, given one by one, make an encoding of the list. -/
theorem concat_flatten {as : List α} {encs : List (List UInt8)} (h : List.Forall₂ E as encs) :
    Concat E as encs.flatten := by
  induction h with
  | nil => exact .nil
  | cons head tail ih => exact .cons head ih

/-- What has an encoding of one kind has one of another, one by one. -/
theorem Concat.exists_concat {E' : α → List UInt8 → Prop} {as : List α} {bs : List UInt8}
    (h : ∀ a bs, E a bs → ∃ bs', E' a bs') (hc : Concat E as bs) : ∃ bs', Concat E' as bs' := by
  induction hc with
  | nil => exact ⟨[], .nil⟩
  | cons head tail ih =>
    obtain ⟨bs, hbs⟩ := h _ _ head
    obtain ⟨bs', hbs'⟩ := ih
    exact ⟨bs ++ bs', .cons hbs hbs'⟩

theorem Concat.mono {E' : α → List UInt8 → Prop} {as : List α} {bs : List UInt8}
    (h : ∀ a bs, E a bs → E' a bs) (hc : Concat E as bs) : Concat E' as bs := by
  induction hc with
  | nil => exact .nil
  | cons head tail ih => exact .cons (h _ _ head) ih

end Leb128
