import FastWasm.ConstExprs
import FastWasm.Framing
import FastWasm.Sections

/-!
# The payloads of the sections, as bytes

What a section has to look like for the loader to take it in, said about the bytes and not about the
code that reads them. A `Stretch` is a set of pieces of memory, each from one position to another,
inside a window that ends at `last`: a number, so many bytes, an entry of some section, a count and
that many entries. A piece is cut up by the values it contains, so the values appear as arguments.

The sections of a file depend on each other. A function section needs the types and the code, a
start section the number of functions, a second import section the first one. `Counts` is what
one section leaves for the next, and `Fits` says which payload fits after which counts and what it
makes of them. That this describes the handlers exactly is `handled_iff_fits`.

A reader and a stretch are compared by `Covers`: the reader takes a piece if and only if it is in
the stretch, with the same values and the same end. There is a rule for sequencing, one for counted
loops and one for a check, so a reader of the source is covered by reading off its stretch, and what
is left to do by hand is the number at the bottom. The format is this loader's own: it says what the
source takes, with its counters of eight bits and its two passes, and not what the specification
asks for.
-/

namespace FastWasm

open Leb128

/-! ## Stretches

A piece is given by its two ends. Pieces of a kind may have several values, and from one position
there may be several pieces of different values; the readers take one of them at most. -/

/-- Pieces of memory, from one position to another. A kind of piece that ends where it begins is
such a set too. -/
abbrev Stretch : Type := ℕ → ℕ → Prop

/-- One piece for each of the values, one behind the other, the next beginning where the one before
has ended. -/
def Stretch.Seq {β : Type} (E : β → Stretch) : List β → Stretch
  | [], p, q => p = q
  | b :: bs, p, q => ∃ r, E b p r ∧ Seq E bs r q

section

variable (mem : Mem) (last : ℕ)

/-- A number of `w` bits as `fw_str_leb_getu` takes it: it begins inside the window, it has no more
bytes than such a number needs, and what it spells is cut to `w` bits. The byte counter of the macro
is a `uint8_t`, so a number of exactly 256 bytes counts as one of none: its value is what the shifts
leave of it, and reading goes on where it began. -/
def NumberAt (w n : ℕ) : Stretch := fun p q =>
  p < last ∧ ∃ bs, Terminated bs ∧ Holds mem p bs ∧
    (bs.length ≤ (w + 7 - 1) / 7 ∧ n = value bs % 2 ^ w ∧ q = p + bs.length ∨
      bs.length = 256 ∧ n = (lebBits bs 0 0).toNat % 2 ^ w ∧ q = p)

/-- A 32-bit number, as `fw_str_leb_getu32` takes it: up to five bytes, of which the bits above 32
do not count. -/
def U32At (n : UInt32) : Stretch := NumberAt mem last 32 n.toNat

/-- An 8-bit number, as `fw_str_leb_getu8` takes it: one byte or two. -/
def U8At (n : UInt8) : Stretch := NumberAt mem last 8 n.toNat

/-- A byte, inside the window. -/
def ByteAt (b : UInt8) : Stretch := fun p q => p < last ∧ mem p = b ∧ q = p + 1

/-- So many bytes, whatever they are, all inside the window. -/
def BytesAt (n : ℕ) : Stretch := fun p q => p + n ≤ last ∧ q = p + n

/-- A count, and that many pieces, one behind the other. This is the form of most payloads. -/
def VecAt (E : Stretch) : Stretch := fun p q =>
  ∃ n r, U32At mem last n p r ∧ Stretch.Seq (fun _ => E) (List.replicate n.toNat ()) r q

/-- A length, and that many bytes: a name. What the bytes are is not looked at. -/
def NameAt : Stretch := fun p q => ∃ n r, U32At mem last n p r ∧ BytesAt last n.toNat r q

/-- A flag and a minimum, and a maximum if the flag is 1. The flag is a number and may have other
values, which count as none. -/
def LimitsAt : Stretch := fun p q =>
  ∃ flag r, U32At mem last flag p r ∧ ∃ min r', U32At mem last min r r' ∧
    if flag = 1 then ∃ max, U32At mem last max r' q else r' = q

/-- A constant expression: a constant of one of five forms and an `end`. -/
def ExprAt : Stretch := fun p q =>
  ∃ bs, ExprBytes bs ∧ Holds mem p bs ∧ q = p + bs.length ∧ q ≤ last

/-! ### Entries

An entry is a sequence of numbers, bytes and names. Only what the handlers look at is told apart. -/

/-- A function type. The two counts are kept in eight bits, and the value types of both are kept in
full. Between them is the second count. -/
def TypeAt (t : FwModuleType) : Stretch := fun p q =>
  ∃ p₁, ByteAt mem last 0x60 p p₁ ∧ ∃ n p₂, U32At mem last n p₁ p₂ ∧
    ∃ p₃, BytesAt last n.toNat p₂ p₃ ∧ ∃ m p₄, U32At mem last m p₃ p₄ ∧
      BytesAt last m.toNat p₄ q ∧
      t = ⟨n.toUInt8, m.toUInt8, bytesAt mem p₂ n.toNat ++ bytesAt mem p₄ m.toNat⟩

/-- A table: `funcref` and limits. Nothing else is let through as an element type. -/
def TableAt : Stretch := fun p q => ∃ r, U8At mem last 0x70 p r ∧ LimitsAt mem last r q

/-- The type of a global: a type and a flag. -/
def GlobalTypeAt : Stretch := fun p q =>
  ∃ type r, U8At mem last type p r ∧ ∃ mutable, U8At mem last mutable r q

/-- A global: its type and its initial value, which is a constant expression. -/
def GlobalAt : Stretch := fun p q => ∃ r, GlobalTypeAt mem last p r ∧ ExprAt mem last r q

/-- An export: its name, a byte for the kind and an index. Neither of the two is compared with
anything here. -/
def ExportAt : Stretch := fun p q =>
  ∃ r, NameAt mem last p r ∧ ∃ kind r', ByteAt mem last kind r r' ∧ ∃ idx, U32At mem last idx r' q

/-- An element segment: its table, its offset, the number of its functions and, unless that is 0,
one index. -/
def ElemAt : Stretch := fun p q =>
  ∃ table r, U32At mem last table p r ∧ ∃ r', ExprAt mem last r r' ∧ ∃ n r'',
    U32At mem last n r' r'' ∧ if n = 0 then r'' = q else ∃ idx, U32At mem last idx r'' q

/-- A data segment: its memory, its offset and its bytes. The bytes are a length and so many, which
has the form of a name. -/
def DataAt : Stretch := fun p q =>
  ∃ memory r, U32At mem last memory p r ∧ ∃ r', ExprAt mem last r r' ∧ NameAt mem last r' q

/-- A group of `n` locals of one type, as two numbers. Of the type nothing is asked. -/
def LocalsAt (n : UInt32) : Stretch := fun p q =>
  ∃ r, U32At mem last n p r ∧ ∃ type, U8At mem last type r q

/-- The code of a function: its size, and groups of less than `2 ^ 32` locals in all. It ends where
the size says, wherever that is. -/
def CodeAt : Stretch := fun p q =>
  ∃ size r, U32At mem last size p r ∧ ∃ n r₁, U32At mem last n r r₁ ∧
    ∃ groups r₂, groups.length = n.toNat ∧ Stretch.Seq (LocalsAt mem last) groups r₁ r₂ ∧
      (groups.map UInt32.toNat).sum < 2 ^ 32 ∧ q = r + size.toNat

/-- Two names and a number for the kind, which is where both passes begin. -/
def ImportHeadAt (kind : UInt8) : Stretch := fun p q =>
  ∃ r, NameAt mem last p r ∧ ∃ r', NameAt mem last r r' ∧ U8At mem last kind r' q

/-- The descriptor of an import as it is counted. Of a table only the element type is looked at, and
of something that is no kind nothing is. -/
def SkimmedAt : Option FwImportKind → Stretch
  | some .func => fun p q => ∃ idx, U32At mem last idx p q
  | some .table => fun p q => ∃ type, U8At mem last type p q
  | some .memory => LimitsAt mem last
  | some .global => GlobalTypeAt mem last
  | none => Eq

/-- The descriptor of an import as it is stored. It differs from the one that is counted in that a
table has its limits. -/
def DescAt : FwImportKind → Stretch
  | .func => fun p q => ∃ idx, U32At mem last idx p q
  | .table => fun p q => ∃ type r, U8At mem last type p r ∧ LimitsAt mem last r q
  | .memory => LimitsAt mem last
  | .global => GlobalTypeAt mem last

/-- An import as it is counted, of the kind that it is counted for. -/
def ImportSeenAt (kind : Option FwImportKind) : Stretch := fun p q =>
  ∃ b r, ImportHeadAt mem last b p r ∧ FwImportKind.ofByte b = kind ∧ SkimmedAt mem last kind r q

/-- An import as it is stored, of the kind that it is stored for. -/
def ImportAt (kind : FwImportKind) : Stretch := fun p q =>
  ∃ b r, ImportHeadAt mem last b p r ∧ FwImportKind.ofByte b = some kind ∧ DescAt mem last kind r q

end

/-- A number below 128 is one byte. -/
theorem numberAt_byte {mem : Mem} {last w p : ℕ} (hw : 7 ≤ w) (hb : (mem p).toNat < 128)
    (hp : p < last) : NumberAt mem last w (mem p).toNat p (p + 1) := by
  have hvalue : value [mem p] = (mem p).toNat := by
    rw [value, value, Nat.mul_zero, Nat.add_zero, Nat.mod_eq_of_lt hb]
  have hpow : 2 ^ 7 ≤ 2 ^ w := Nat.pow_le_pow_right (by decide) hw
  refine ⟨hp, [mem p], UInt8.lt_iff_toNat_lt.mpr hb, ⟨rfl, trivial⟩, .inl ⟨?_, ?_, rfl⟩⟩
  · rw [List.length_singleton]
    omega
  · rw [hvalue, Nat.mod_eq_of_lt (lt_of_lt_of_le hb hpow)]

/-! ## Sections

What a section leaves depends on what was there. A section without entries leaves most arrays as
they are, a section of types sets the count all the same, and a start section sets one number. -/

/-- What the sections so far leave for the ones behind them: the numbers that their handlers compare
with, and where the code is. -/
structure Counts where
  /-- the count of the last type section -/
  typeCnt : UInt32
  /-- the types of the last type section that is not empty -/
  types : Option (List FwModuleType)
  /-- the count of the last function section that is not empty -/
  funcCnt : UInt32
  /-- the types of its functions; one that is looked up behind the types is not known -/
  funcs : List (Option FwModuleType)
  /-- where the code for the next function section begins, and the end of the code section -/
  code : FwStr
  /-- the index in the last start section with an index other than 0 -/
  start : UInt32
  /-- the imports counted so far, of each kind -/
  counted : FwImportKind → UInt32
  /-- the imports stored so far, of each kind -/
  stored : FwImportKind → ℕ

namespace Counts

/-- The counts before the first section, with the code section that was found. -/
def init (code : FwStr) : Counts := ⟨0, none, 0, [], code, 0, fun _ => 0, fun _ => 0⟩

/-- The numbers of imports with these counted as well, in 32 bits. What is no kind is not counted.
-/
def count (c : Counts) (seen : List (Option FwImportKind)) : FwImportKind → UInt32 :=
  fun k => c.counted k + UInt32.ofNat (seen.count (some k))

/-- The numbers of imports with these stored as well. A kind with a count gets a new array. -/
def store (c : Counts) (counted : FwImportKind → UInt32) (kinds : List FwImportKind) :
    FwImportKind → ℕ :=
  fun k => (if counted k ≠ 0 then 0 else c.stored k) + kinds.count k

end Counts

open Stretch (Seq)

/-- A section of some type fits behind the counts `c`, and these become others. There is a
constructor for each type, with what the payload has to be. -/
inductive Fits (mem : Mem) (c : Counts) (d : FwStr) : UInt8 → Counts → Prop
  /-- a custom section, whatever it contains -/
  | custom : Fits mem c d 0 c
  /-- types -/
  | types {n : UInt32} {p : ℕ} {ts : List FwModuleType} (count : U32At mem d.last n d.pos p)
    (length : ts.length = n.toNat) (entries : Seq (TypeAt mem d.last) ts p d.last) :
    Fits mem c d 1 { c with typeCnt := n, types := if n ≠ 0 then some ts else c.types }
  /-- imports: both passes can read them, and no more are stored of a kind than were counted -/
  | imports {n : UInt32} {p q : ℕ} {seen : List (Option FwImportKind)} {kinds : List FwImportKind}
    (count : U32At mem d.last n d.pos p) (ne_zero : n ≠ 0) (seen_length : seen.length = n.toNat)
    (skimmed : Seq (ImportSeenAt mem d.last) seen p q) (length : kinds.length = n.toNat)
    (entries : Seq (ImportAt mem d.last) kinds p d.last)
    (room : ∀ k ∈ kinds, c.store (c.count seen) kinds k ≤ (c.count seen k).toNat) :
    Fits mem c d 2 { c with counted := c.count seen, stored := c.store (c.count seen) kinds }
  /-- no imports -/
  | noImports (count : U32At mem d.last 0 d.pos d.last) : Fits mem c d 2 c
  /-- functions: types have been read, no index is above their number, and as many entries of the
  code section are left -/
  | funcs {n : UInt32} {p q r : ℕ} {types : List FwModuleType} {idxs : List UInt32}
    (count : U32At mem d.last n d.pos p) (ne_zero : n ≠ 0)
    (code_count : U32At mem c.code.last n c.code.pos q) (types_eq : c.types = some types)
    (length : idxs.length = n.toNat) (entries : Seq (U32At mem d.last) idxs p d.last)
    (le : ∀ idx ∈ idxs, idx ≤ c.typeCnt)
    (code : Seq (fun _ => CodeAt mem c.code.last) (List.replicate n.toNat ()) q r) :
    Fits mem c d 3 { c with
      funcCnt := n, funcs := idxs.map (types[·.toNat]?), code := ⟨r, c.code.last⟩ }
  /-- no functions -/
  | noFuncs {q : ℕ} (count : U32At mem d.last 0 d.pos d.last)
    (code_count : U32At mem c.code.last 0 c.code.pos q) :
    Fits mem c d 3 { c with code := ⟨q, c.code.last⟩ }
  /-- tables -/
  | tables (entries : VecAt mem d.last (TableAt mem d.last) d.pos d.last) : Fits mem c d 4 c
  /-- no memories -/
  | memories (count : U32At mem d.last 0 d.pos d.last) : Fits mem c d 5 c
  /-- globals -/
  | globals (entries : VecAt mem d.last (GlobalAt mem d.last) d.pos d.last) : Fits mem c d 6 c
  /-- exports -/
  | exports (entries : VecAt mem d.last (ExportAt mem d.last) d.pos d.last) : Fits mem c d 7 c
  /-- a start function, at most the number of functions that there are -/
  | start {idx : UInt32} (read : U32At mem d.last idx d.pos d.last) (le : idx ≤ c.funcCnt) :
    Fits mem c d 8 { c with start := if idx ≠ 0 then idx else c.start }
  /-- element segments -/
  | elems (entries : VecAt mem d.last (ElemAt mem d.last) d.pos d.last) : Fits mem c d 9 c
  /-- code, which is looked at with the functions -/
  | code : Fits mem c d 10 c
  /-- data segments -/
  | datas (entries : VecAt mem d.last (DataAt mem d.last) d.pos d.last) : Fits mem c d 11 c

/-- Every section fits behind the ones before it. The counts are handed on from each to the next,
from `c` in front of the first to what the last one leaves. -/
inductive AllFit (mem : Mem) : Counts → List FwModuleSection → Counts → Prop
  /-- no section -/
  | nil (c : Counts) : AllFit mem c [] c
  /-- one section, and the ones behind it -/
  | cons {c c' c'' : Counts} {sec : FwModuleSection} {rest : List FwModuleSection}
    (head : Fits mem c sec.data sec.type c') (tail : AllFit mem c' rest c'') :
    AllFit mem c (sec :: rest) c''

theorem allFit_append {mem : Mem} {c c'' : Counts} {pre post : List FwModuleSection} :
    AllFit mem c (pre ++ post) c'' ↔ ∃ c', AllFit mem c pre c' ∧ AllFit mem c' post c'' := by
  induction pre generalizing c with
  | nil =>
    constructor
    · exact fun h => ⟨c, .nil c, h⟩
    · rintro ⟨_, ⟨⟩, h⟩
      exact h
  | cons sec pre ih =>
    constructor
    · rintro (_ | ⟨head, tail⟩)
      obtain ⟨c', h, h'⟩ := ih.mp tail
      exact ⟨c', .cons head h, h'⟩
    · rintro ⟨c', _ | ⟨head, tail⟩, h'⟩
      exact .cons head (ih.mpr ⟨c', tail, h'⟩)

/-! ## Files

From the bytes of a file to its sections, without a loader. -/

/-- The sections from a position on: an id that exists, a size and that many bytes, one section
behind the other up to the end. Their payloads are pieces of the same memory. -/
inductive SectionsAt (mem : Mem) (last : ℕ) : ℕ → List FwModuleSection → Prop
  /-- the end of the file -/
  | nil : SectionsAt mem last last []
  /-- one section, and the ones behind it -/
  | cons {p r : ℕ} {size : UInt32} {secs : List FwModuleSection} (lt : p < last)
    (type_lt : mem p < fwSectionTypeMax) (size_at : U32At mem last size (p + 1) r)
    (rest : SectionsAt mem last (r + size.toNat) secs) :
    SectionsAt mem last p (⟨mem p, ⟨r, r + size.toNat⟩, false⟩ :: secs)

/-- A file: the magic number, the version and the sections. The last of its code sections is the one
that the functions are read from, and there has to be one. -/
structure FileAt (mem : Mem) (file : FwStr) (secs : List FwModuleSection) (code : FwStr) :
    Prop where
  /-- eight bytes at least -/
  header : file.pos + 8 ≤ file.last
  /-- the magic number -/
  magic : wordAt mem file.pos = fwMagicNumber
  /-- the version -/
  version : wordAt mem (file.pos + 4) = fwVersion
  /-- the sections -/
  sections : SectionsAt mem file.last (file.pos + 8) secs
  /-- the last code section -/
  code_eq : lastCode none secs = some code

/-! ## Readers and stretches

The rules for covering a reader. They follow the ways in which readers are built: a value, a
sequence, a test, a choice of two, and a list of entries. -/

open Logged (Fallible)
open Logged.Fallible

/-- A reader takes exactly the pieces of a stretch. Of its value `f` keeps what the stretch is
about; the window is that of the cursor, and stays as it is. -/
def Covers {α β : Type} (m : Parse α) (f : α → β) (E : ℕ → β → Stretch) : Prop :=
  ∀ d d' b, (∃ a, Runs m d a d' ∧ f a = b) ↔ d'.last = d.last ∧ E d.last b d.pos d'.pos

/-- A reader takes exactly the pieces of a stretch that says nothing about the value. -/
abbrev CoversAny {α : Type} (m : Parse α) (E : ℕ → Stretch) : Prop :=
  Covers m (fun _ => ()) fun last _ => E last

namespace Covers

variable {mem : Mem} {α β γ δ : Type} {m : Parse α} {f : α → β} {E E' : ℕ → β → Stretch}

theorem congr (h : Covers m f E) (hE : ∀ last b p q, E last b p q ↔ E' last b p q) :
    Covers m f E' :=
  fun d d' b => (h d d' b).trans (and_congr_right fun _ => hE ..)

theorem pure (a : α) : Covers (pure a) f fun _ b p q => b = f a ∧ p = q := by
  rintro ⟨p, last⟩ ⟨q, last'⟩ b
  simp only [runs_pure, FwStr.mk.injEq]
  grind

/-- A value that nothing is said about. -/
theorem any_pure (a : α) : CoversAny (Pure.pure a : Parse α) fun _ => Eq := by
  rintro ⟨p, last⟩ ⟨q, last'⟩ b
  simp only [runs_pure, FwStr.mk.injEq]
  grind

theorem ite {c : Prop} [Decidable c] {m' : Parse α} (h : c → Covers m f E)
    (h' : ¬ c → Covers m' f E') :
    Covers (if c then m else m') f fun last b p q => if c then E last b p q else E' last b p q := by
  by_cases hc : c
  · simp only [if_pos hc]
    exact h hc
  · simp only [if_neg hc]
    exact h' hc

/-- Sequencing. -/
theorem bind {A : ℕ → α → Stretch} (hm : Covers m id A) {k : α → Parse γ} {g : γ → δ}
    {B : α → ℕ → δ → Stretch} (hk : ∀ a, Covers (k a) g (B a)) :
    Covers (m >>= k) g fun last c p q => ∃ a r, A last a p r ∧ B a last c r q := by
  intro d d' c
  simp only [runs_bind]
  constructor
  · rintro ⟨c', ⟨a, d₁, hr, hr'⟩, rfl⟩
    obtain ⟨hlast, hA⟩ := (hm d d₁ a).mp ⟨a, hr, rfl⟩
    obtain ⟨hlast', hB⟩ := (hk a d₁ d' _).mp ⟨c', hr', rfl⟩
    rw [hlast] at hlast' hB
    exact ⟨hlast', a, d₁.pos, hA, hB⟩
  · rintro ⟨hlast, b, r, hA, hB⟩
    obtain ⟨a, hr, rfl⟩ := (hm d ⟨r, d.last⟩ b).mpr ⟨rfl, hA⟩
    obtain ⟨c', hr', hc⟩ := (hk a ⟨r, d.last⟩ d' c).mpr ⟨hlast, hB⟩
    exact ⟨c', ⟨a, _, hr, hr'⟩, hc⟩

/-- Sequencing, when what comes next is the same for every value. -/
theorem any_bind {A : ℕ → Stretch} (hm : CoversAny m A) {k : α → Parse γ} {g : γ → δ}
    {B : ℕ → δ → Stretch} (hk : ∀ a, Covers (k a) g B) :
    Covers (m >>= k) g fun last c p q => ∃ r, A last p r ∧ B last c r q := by
  intro d d' c
  simp only [runs_bind]
  constructor
  · rintro ⟨c', ⟨a, d₁, hr, hr'⟩, rfl⟩
    obtain ⟨hlast, hA⟩ := (hm d d₁ ()).mp ⟨a, hr, rfl⟩
    obtain ⟨hlast', hB⟩ := (hk a d₁ d' _).mp ⟨c', hr', rfl⟩
    rw [hlast] at hlast' hB
    exact ⟨hlast', d₁.pos, hA, hB⟩
  · rintro ⟨hlast, r, hA, hB⟩
    obtain ⟨a, hr, -⟩ := (hm d ⟨r, d.last⟩ ()).mpr ⟨rfl, hA⟩
    obtain ⟨c', hr', hc⟩ := (hk a ⟨r, d.last⟩ d' c).mpr ⟨hlast, hB⟩
    exact ⟨c', ⟨a, _, hr, hr'⟩, hc⟩

/-- A test, and what comes behind it. -/
theorem check_bind {P : Prop} [Decidable P] {k : PUnit → Parse α} (hk : Covers (k ⟨⟩) f E) :
    Covers (check P >>= k) f fun last b p q => P ∧ E last b p q := by
  intro d d' b
  simp only [runs_bind, runs_check]
  constructor
  · rintro ⟨a, ⟨_, _, ⟨hP, rfl⟩, hr⟩, rfl⟩
    obtain ⟨hlast, hE⟩ := (hk _ d' _).mp ⟨a, hr, rfl⟩
    exact ⟨hlast, hP, hE⟩
  · rintro ⟨hlast, hP, hE⟩
    obtain ⟨a, hr, ha⟩ := (hk d d' b).mpr ⟨hlast, hE⟩
    exact ⟨a, ⟨_, _, ⟨hP, rfl⟩, hr⟩, ha⟩

/-- A run, when the stretch is about the value itself. -/
theorem runs_iff {A : ℕ → α → Stretch} (hm : Covers m id A) {d d' : FwStr} {a : α} :
    Runs m d a d' ↔ d'.last = d.last ∧ A d.last a d.pos d'.pos := by
  rw [← hm d d' a]
  simp only [id, exists_eq_right]

/-- A piece of memory is read. -/
theorem runs {A : ℕ → α → Stretch} (hm : Covers m id A) {p q last : ℕ} {a : α}
    (h : A last a p q) : Runs m ⟨p, last⟩ a ⟨q, last⟩ :=
  hm.runs_iff.mpr ⟨rfl, h⟩

/-- Only one value is read at a position. -/
theorem unique {A : ℕ → α → Stretch} (hm : Covers m id A) {p q q' last : ℕ} {a a' : α}
    (h : A last a p q) (h' : A last a' p q') : a = a' ∧ q = q' := by
  obtain ⟨ha, hq⟩ := (hm.runs h).unique (hm.runs h')
  exact ⟨ha, congrArg FwStr.pos hq⟩

/-- The value of a reader is forgotten. -/
theorem any {A : ℕ → α → Stretch} (hm : Covers m id A) :
    CoversAny m fun last p q => ∃ a, A last a p q := by
  intro d d' b
  refine ⟨?_, ?_⟩
  · rintro ⟨a, hr, -⟩
    obtain ⟨hlast, hA⟩ := (hm d d' a).mp ⟨a, hr, rfl⟩
    exact ⟨hlast, a, hA⟩
  · rintro ⟨hlast, a, hA⟩
    obtain ⟨_, hr, -⟩ := (hm d d' a).mpr ⟨hlast, hA⟩
    exact ⟨_, hr, rfl⟩

/-- Entries one after the other. -/
theorem seq (hm : Covers m f E) :
    ∀ (bs : List β) (d d' : FwStr), (∃ as, as.map f = bs ∧ Reads m d as d') ↔
      d'.last = d.last ∧ Stretch.Seq (E d.last) bs d.pos d'.pos
  | [], ⟨p, last⟩, ⟨q, last'⟩ => by
    simp only [List.map_eq_nil_iff, exists_eq_left, reads_nil, Stretch.Seq, FwStr.mk.injEq]
    grind
  | b :: bs, d, d' => by
    simp only [Stretch.Seq]
    constructor
    · rintro ⟨as, has, hreads⟩
      obtain ⟨a, as, rfl, rfl, rfl⟩ := List.map_eq_cons_iff.mp has
      obtain ⟨d₁, hr, hrest⟩ := reads_cons.mp hreads
      obtain ⟨hlast, hE⟩ := (hm d d₁ (f a)).mp ⟨a, hr, rfl⟩
      obtain ⟨hlast', hseq⟩ := (hm.seq _ d₁ d').mp ⟨as, rfl, hrest⟩
      rw [hlast] at hlast' hseq
      exact ⟨hlast', d₁.pos, hE, hseq⟩
    · rintro ⟨hlast, r, hE, hseq⟩
      obtain ⟨a, hr, rfl⟩ := (hm d ⟨r, d.last⟩ b).mpr ⟨rfl, hE⟩
      obtain ⟨as, rfl, hrest⟩ := (hm.seq bs ⟨r, d.last⟩ d').mpr ⟨hlast, hseq⟩
      exact ⟨a :: as, rfl, reads_cons.mpr ⟨_, hr, hrest⟩⟩

/-- Pieces of memory are read. -/
theorem reads {A : ℕ → α → Stretch} (hm : Covers m id A) {p q last : ℕ} {as : List α}
    (h : Stretch.Seq (A last) as p q) : Reads m ⟨p, last⟩ as ⟨q, last⟩ := by
  obtain ⟨_, has, hreads⟩ := (hm.seq as ⟨p, last⟩ ⟨q, last⟩).mpr ⟨rfl, h⟩
  rw [List.map_id] at has
  exact has ▸ hreads

/-- Only one list of so many values is read at a position. -/
theorem seq_unique {A : ℕ → α → Stretch} (hm : Covers m id A) {p q q' last : ℕ} {as as' : List α}
    (h : Stretch.Seq (A last) as p q) (h' : Stretch.Seq (A last) as' p q')
    (hlen : as.length = as'.length) : as = as' :=
  ((hm.reads h).unique (hm.reads h') hlen).1

/-- So many entries, whatever they are. -/
theorem any_seq {A : ℕ → Stretch} (hm : CoversAny m A) (n : ℕ) (d d' : FwStr) :
    (∃ as, as.length = n ∧ Reads m d as d') ↔ d'.last = d.last ∧
      Stretch.Seq (fun _ => A d.last) (List.replicate n ()) d.pos d'.pos := by
  rw [← hm.seq (List.replicate n ()) d d']
  refine exists_congr fun as => and_congr_left fun _ => ?_
  simp [List.eq_replicate_iff]

end Covers

/-! ### Numbers and bytes

The readers that everything is made of. -/

section

variable {mem : Mem}

/-- A number of at most 256 bytes; the count of its bytes is kept in eight bits. -/
theorem getu_of_terminated {d : FwStr} {w : ℕ} {bs : List UInt8} (ht : Terminated bs)
    (hm : Holds mem d.pos bs) (hlen : bs.length ≤ 256) (hlt : d.pos < d.last) :
    fwStrLebGetu mem d w = if bs.length % 256 > (w + 7 - 1) / 7 then .strErr
      else .got (lebBits bs 0 0) ⟨d.pos + bs.length % 256, d.last⟩ := by
  have hr : fwStrLebGetuRounds mem d.pos 256 0 0 0 =
      some (0 + UInt8.ofNat bs.length, lebBits bs 0 0) :=
    rounds_of_terminated ht (by simpa using hm) hlen (by simpa using hlen)
  have hround : ((0 : UInt8) + UInt8.ofNat bs.length).toNat = bs.length % 256 := by
    rw [UInt8.zero_add, UInt8.toNat_ofNat']
  rw [fwStrLebGetu, if_neg (by omega), hr]
  simp only [hround]

/-- A read of a number that succeeds is a number at the cursor, up to where the read ends. That is
behind the number, or, for one of 256 bytes, where it began: the counter of the bytes has wrapped.
-/
theorem getu_iff {d d' : FwStr} {w : ℕ} {v : UInt64} (hw : (w + 7 - 1) / 7 < 256) :
    fwStrLebGetu mem d w = .got v d' ↔ d'.last = d.last ∧ d.pos < d.last ∧
      ∃ bs, Terminated bs ∧ Holds mem d.pos bs ∧ v = lebBits bs 0 0 ∧
        (bs.length ≤ (w + 7 - 1) / 7 ∧ d'.pos = d.pos + bs.length ∨
          bs.length = 256 ∧ d'.pos = d.pos) := by
  constructor
  · intro h
    obtain ⟨hlt, hlast, k, hk, hall, hend, hpos, hle⟩ := getu_eq_got h
    have hlen : (bytesAt mem d.pos (k + 1)).length = k + 1 := length_bytesAt ..
    have ht := terminated_of_holds hall hend (holds_bytesAt mem d.pos (k + 1)) hlen
    rw [getu_of_terminated ht (holds_bytesAt ..) (by omega) hlt, hlen, if_neg (by omega)] at h
    obtain ⟨rfl, rfl⟩ := LebRead.got.inj h
    refine ⟨rfl, hlt, _, ht, holds_bytesAt .., rfl, ?_⟩
    rw [hlen]
    rcases Nat.lt_or_ge (k + 1) 256 with hk' | hk'
    · exact .inl ⟨by omega, by simp only; omega⟩
    · exact .inr ⟨by omega, by simp only; omega⟩
  · obtain ⟨q, last⟩ := d'
    rintro ⟨rfl, hlt, bs, ht, hm, rfl, ⟨hlen, rfl⟩ | ⟨hlen, rfl⟩⟩
    · rw [getu_of_terminated ht hm (by omega) hlt, Nat.mod_eq_of_lt (by omega),
        if_neg (by omega)]
    · rw [getu_of_terminated ht hm (by omega) hlt, hlen, if_neg (by omega)]
      rfl

/-- The bits of a number of `w` bits, at most 32, are those of its value. -/
theorem toNat_lebBits_mod {bs : List UInt8} (hlen : bs.length ≤ 5) :
    (lebBits bs 0 0).toNat % 2 ^ 32 = value bs % 2 ^ 32 := by
  rw [← UInt64.toNat_toUInt32, toNat_lebBits (by change 0 + _ ≤ 35; omega) (by decide)]
  simp

theorem covers_number {α : Type} {w : ℕ} (hw : w ≤ 32) {get : UInt64 → α} {toNat : α → ℕ}
    (hinj : toNat.Injective) (hget : ∀ v, toNat (get v) = v.toNat % 2 ^ w) :
    Covers (Parse.ofLeb (fwStrLebGetu mem · w) >>= fun v => pure (get v)) id
      fun last n => NumberAt mem last w (toNat n) := by
  have hbytes : (w + 7 - 1) / 7 ≤ 5 := by omega
  intro d d' n
  simp only [runs_bind_pure, runs_ofLeb, getu_iff (show (w + 7 - 1) / 7 < 256 by omega), NumberAt,
    id, exists_eq_right]
  have hval : ∀ bs : List UInt8, bs.length ≤ (w + 7 - 1) / 7 →
      (lebBits bs 0 0).toNat % 2 ^ w = value bs % 2 ^ w := by
    intro bs hlen
    have hdvd : 2 ^ w ∣ 2 ^ 32 := pow_dvd_pow 2 hw
    rw [← Nat.mod_mod_of_dvd _ hdvd, toNat_lebBits_mod (hlen.trans hbytes),
      Nat.mod_mod_of_dvd _ hdvd]
  constructor
  · rintro ⟨_, ⟨hlast, hlt, bs, ht, hm, rfl, h⟩, rfl⟩
    refine ⟨hlast, hlt, bs, ht, hm, ?_⟩
    rw [hget]
    exact h.imp (fun h => ⟨h.1, hval bs h.1, h.2⟩) fun h => ⟨h.1, rfl, h.2⟩
  · rintro ⟨hlast, hlt, bs, ht, hm, h⟩
    refine ⟨lebBits bs 0 0, ⟨hlast, hlt, bs, ht, hm, rfl, ?_⟩, hinj ?_⟩
    · exact h.imp (fun h => ⟨h.1, h.2.2⟩) fun h => ⟨h.1, h.2.2⟩
    · rw [hget]
      rcases h with ⟨hlen, hn, -⟩ | ⟨-, hn, -⟩
      · rw [hn, hval bs hlen]
      · exact hn

theorem covers_getu32 : Covers (fwStrLebGetu32 mem) id (U32At mem) :=
  covers_number le_rfl (fun _ _ h => UInt32.toNat_inj.mp h) UInt64.toNat_toUInt32

theorem covers_getu8 : Covers (fwStrLebGetu8 mem) id (U8At mem) :=
  covers_number (by decide) (fun _ _ h => UInt8.toNat_inj.mp h) UInt64.toNat_toUInt8

theorem covers_get8 : Covers (Parse.get8 mem) id (ByteAt mem) := by
  rintro d ⟨q, last⟩ b
  simp only [runs_get8, id, exists_eq_right, ByteAt, FwStr.mk.injEq]
  grind

theorem covers_pass (n : ℕ) : CoversAny (fwStrPass n) (BytesAt · n) := by
  rintro d ⟨q, last⟩ b
  simp only [runs_pass, BytesAt, FwStr.mk.injEq]
  grind

theorem covers_makeStr (n : ℕ) : CoversAny (fwMakeStr mem n) fun _ => Eq := by
  rintro ⟨p, last⟩ ⟨q, last'⟩ b
  simp only [fwMakeStr, runs_bind, runs_get, runs_emit, runs_pure]
  grind

theorem covers_expr : CoversAny (fwModuleParseExpr mem) (ExprAt mem) := by
  rintro d ⟨q, last⟩ b
  constructor
  · rintro ⟨_, hr, rfl⟩
    obtain ⟨bs, hbs, ⟨hm, heq⟩, hle⟩ := passed_of_parseExpr hr
    obtain ⟨rfl, rfl⟩ := FwStr.mk.inj heq
    exact ⟨rfl, bs, hbs, hm, rfl, hle⟩
  · rintro ⟨rfl, bs, hbs, hm, rfl, hle⟩
    exact ⟨⟨⟩, readsAs_exprBytes hbs d hm hle, rfl⟩

/-! ### Entries -/

theorem covers_typeVals (n : ℕ) : Covers (fwTypeVals mem n) id fun last bs p q =>
    BytesAt last n p q ∧ bs = bytesAt mem p n := by
  rintro d ⟨q, last⟩ bs
  simp only [fwTypeVals, runs_bind, runs_get, runs_pass, runs_pure, BytesAt]
  grind

theorem covers_type : Covers (fwTypeEntry mem) id (TypeAt mem) := by
  refine (covers_get8.bind fun pre => Covers.check_bind <| covers_getu32.bind fun n =>
    (covers_typeVals _).bind fun ps => covers_getu32.bind fun m =>
    (covers_typeVals _).bind fun rs => Covers.pure _).congr fun last t p q => ?_
  simp only [TypeAt, id]
  grind

theorem covers_name : CoversAny (fwImportName mem) (NameAt mem) := by
  rw [fwImportName]
  refine (covers_getu32.bind fun n => (covers_makeStr n.toNat).any_bind fun _ =>
    (covers_pass n.toNat).any_bind fun _ => Covers.any_pure _).congr fun last _ p q => ?_
  simp only [NameAt]
  grind

theorem covers_limitsMax (flag dflt : UInt32) :
    CoversAny (fwLimitsMax mem flag dflt) fun last p q =>
      if flag = 1 then ∃ max, U32At mem last max p q else p = q := by
  rw [fwLimitsMax]
  refine (Covers.ite (fun _ => covers_getu32.any) fun _ => Covers.any_pure dflt).congr
    fun last _ p q => Iff.rfl

theorem covers_table : CoversAny (fwTableEntry mem) (TableAt mem) := by
  refine (covers_getu8.bind fun type => Covers.check_bind <| covers_getu32.bind fun flag =>
    covers_getu32.bind fun min => (covers_limitsMax flag _).any_bind fun _ =>
    Covers.any_pure _).congr fun last _ p q => ?_
  simp only [TableAt, LimitsAt]
  grind

theorem covers_global : CoversAny (fwGlobalEntry mem) (GlobalAt mem) := by
  refine (covers_getu8.bind fun type => covers_getu8.bind fun mutable =>
    covers_expr.any_bind fun _ => Covers.any_pure _).congr fun last _ p q => ?_
  simp only [GlobalAt, GlobalTypeAt]
  grind

theorem covers_export : CoversAny (fwExportEntry mem) (ExportAt mem) := by
  rw [fwExportEntry]
  refine (covers_getu32.bind fun n => (covers_makeStr n.toNat).any_bind fun _ =>
    (covers_pass n.toNat).any_bind fun _ => covers_get8.bind fun kind =>
    covers_getu32.bind fun idx => Covers.any_pure _).congr fun last _ p q => ?_
  simp only [ExportAt, NameAt]
  grind

theorem covers_elem : CoversAny (fwElemEntry mem) (ElemAt mem) := by
  rw [fwElemEntry]
  have hfuncs (table n : UInt32) : CoversAny (if n ≠ 0 then do
      let funcIdx ← fwStrLebGetu32 mem
      pure (⟨table, n, some (List.replicate n.toNat funcIdx)⟩ : FwModuleElem)
    else pure ⟨table, n, none⟩) _ :=
    Covers.ite (fun _ => covers_getu32.bind fun idx => Covers.any_pure _) fun _ => Covers.any_pure _
  refine (covers_getu32.bind fun table => covers_expr.any_bind fun _ => covers_getu32.bind fun n =>
    hfuncs table n).congr fun last _ p q => ?_
  simp only [ElemAt, ite_not, exists_eq_right]

theorem covers_data : CoversAny (fwDataEntry mem) (DataAt mem) := by
  have hbytes (memory n : UInt32) : CoversAny (do
      let data ← get
      fwStrPass n.toNat
      pure (⟨n, memory, data.pos⟩ : FwModuleData)) (BytesAt · n.toNat) := by
    rintro d ⟨q, last⟩ b
    simp only [runs_bind, runs_get, runs_pass, runs_pure, BytesAt]
    grind
  rw [fwDataEntry]
  refine (covers_getu32.bind fun memory => covers_expr.any_bind fun _ =>
    covers_getu32.bind fun n => hbytes memory n).congr fun last _ p q => ?_
  simp only [DataAt, NameAt]

/-! ### Code

The entry of a function is read up to its groups and left at the end that its size says. -/

theorem covers_localGroup : Covers (fwLocalGroup mem) Prod.fst (LocalsAt mem) := by
  rw [fwLocalGroup]
  refine (covers_getu32.bind fun n => covers_getu8.bind fun type => Covers.pure (n, type)).congr
    fun last n p q => ?_
  simp only [LocalsAt]
  grind

theorem covers_code : CoversAny (fwCodeEntry mem) (CodeAt mem) := by
  intro c c' b
  simp only [runs_codeEntry, covers_getu32.runs_iff, CodeAt]
  constructor
  · rintro ⟨_, ⟨size, c₁, ⟨hc₁, hsize⟩, n, c₂, ⟨hc₂, hn⟩, groups, hlen, c₃, hgroups, hlt, -, rfl⟩,
      -⟩
    obtain ⟨-, hseq⟩ := (covers_localGroup.seq _ c₂ c₃).mp ⟨groups, rfl, hgroups⟩
    rw [hc₁] at hc₂ hn
    rw [hc₂] at hseq
    exact ⟨rfl, size, c₁.pos, hsize, n, c₂.pos, hn, _, c₃.pos, by rw [List.length_map, hlen], hseq,
      by rwa [List.map_map], rfl⟩
  · obtain ⟨q, last⟩ := c'
    rintro ⟨rfl, size, r, hsize, n, r₁, hn, groups, r₂, hlen, hseq, hlt, rfl⟩
    obtain ⟨as, rfl, hgroups⟩ :=
      (covers_localGroup.seq _ ⟨r₁, c.last⟩ ⟨r₂, c.last⟩).mpr ⟨rfl, hseq⟩
    rw [List.length_map] at hlen
    rw [List.map_map] at hlt
    exact ⟨_, ⟨size, ⟨r, c.last⟩, ⟨rfl, hsize⟩, n, ⟨r₁, c.last⟩, ⟨rfl, hn⟩, as, hlen, _, hgroups,
      hlt, rfl, rfl⟩, trivial⟩

/-! ### Imports

The two passes over an import, each with pieces of its own. -/

theorem covers_head {α β : Type} {k : UInt8 → Parse α} {f : α → β} {B : UInt8 → ℕ → β → Stretch}
    (hk : ∀ byte, Covers (k byte) f (B byte)) :
    Covers (do
      let n ← fwStrLebGetu32 mem
      fwStrPass n.toNat
      let n' ← fwStrLebGetu32 mem
      fwStrPass n'.toNat
      let byte ← fwStrLebGetu8 mem
      k byte) f fun last b p q => ∃ byte r, ImportHeadAt mem last byte p r ∧ B byte last b r q := by
  refine (covers_getu32.bind fun n => (covers_pass n.toNat).any_bind fun _ =>
    covers_getu32.bind fun n' => (covers_pass n'.toNat).any_bind fun _ =>
    covers_getu8.bind hk).congr fun last b p q => ?_
  simp only [ImportHeadAt, NameAt]
  grind

theorem covers_importSkip (kind : Option FwImportKind) :
    CoversAny (fwImportSkip mem kind) (SkimmedAt mem · kind) := by
  rcases kind with _ | _ | _ | _ | _
  · exact Covers.any_pure _
  · exact (covers_getu32.bind fun _ => Covers.any_pure _).congr fun last _ p q => by
      simp [SkimmedAt]
  · exact (covers_getu8.bind fun _ => Covers.any_pure _).congr fun last _ p q => by
      simp [SkimmedAt]
  · exact (covers_getu32.bind fun flag => covers_getu32.bind fun _ =>
      (covers_limitsMax flag 0).any_bind fun _ => Covers.any_pure _).congr fun last _ p q => by
      simp only [SkimmedAt, LimitsAt]
      grind
  · exact (covers_getu8.bind fun _ => covers_getu8.bind fun _ => Covers.any_pure _).congr
      fun last _ p q => by simp [SkimmedAt, GlobalTypeAt]

theorem covers_importDesc (kind : FwImportKind) :
    CoversAny (fwImportDesc mem kind) (DescAt mem · kind) := by
  rcases kind with _ | _ | _ | _
  · exact (covers_getu32.bind fun _ => Covers.any_pure _).congr fun last _ p q => by
      simp [DescAt]
  · exact (covers_getu8.bind fun _ => covers_getu32.bind fun flag => covers_getu32.bind fun _ =>
      (covers_limitsMax flag 0x1000).any_bind fun _ => Covers.any_pure _).congr
      fun last _ p q => by
      simp only [DescAt, LimitsAt]
      grind
  · exact (covers_getu32.bind fun flag => covers_getu32.bind fun _ =>
      (covers_limitsMax flag 0x1000).any_bind fun _ => Covers.any_pure _).congr
      fun last _ p q => by
      simp only [DescAt, LimitsAt]
      grind
  · exact (covers_getu8.bind fun _ => covers_getu8.bind fun _ => Covers.any_pure _).congr
      fun last _ p q => by simp [DescAt, GlobalTypeAt]

theorem covers_importSeen : Covers (fwImportSeen mem) id (ImportSeenAt mem) := by
  have hkind (byte : UInt8) : Covers (do
      fwImportSkip mem (FwImportKind.ofByte byte)
      pure (FwImportKind.ofByte byte)) id _ :=
    (covers_importSkip (FwImportKind.ofByte byte)).any_bind fun _ => Covers.pure _
  refine (covers_head hkind).congr fun last kind p q => ?_
  simp only [ImportSeenAt, id]
  grind

theorem covers_importEntry : Covers (fwImportEntry mem) (·.desc.kind) (ImportAt mem) := by
  rw [fwImportEntry]
  refine (covers_name.any_bind fun mname => covers_name.any_bind fun nsname =>
    covers_getu8.bind fun byte => (?_ : Covers _ _ fun last kind p q =>
      FwImportKind.ofByte byte = some kind ∧ DescAt mem last kind p q)).congr
      fun last kind p q => ?_
  · -- the descriptor, of a kind that is one
    intro d d' kind
    cases FwImportKind.ofByte byte with
    | none => simp
    | some k =>
      simp only [runs_bind_pure, Option.some.injEq]
      constructor
      · rintro ⟨_, ⟨desc, hr, rfl⟩, rfl⟩
        obtain ⟨hlast, hE⟩ := (covers_importDesc k d d' ()).mp ⟨desc, hr, rfl⟩
        obtain rfl := kind_of_importDesc hr
        exact ⟨hlast, rfl, hE⟩
      · rintro ⟨hlast, rfl, hE⟩
        obtain ⟨desc, hr, -⟩ := (covers_importDesc k d d' ()).mpr ⟨hlast, hE⟩
        exact ⟨_, ⟨desc, hr, rfl⟩, kind_of_importDesc hr⟩
  · simp only [ImportAt, ImportHeadAt]
    grind

/-! ### Files -/

theorem loadSections_iff {n p last : ℕ} {codeRef codeRef' : Option FwStr}
    {secs : List FwModuleSection} (hn : last - p < n) :
    (∃ str', Runs (fwLoadSections mem n codeRef) ⟨p, last⟩ (secs, codeRef') str' ∧
      str'.pos = str'.last) ↔ SectionsAt mem last p secs ∧ codeRef' = lastCode codeRef secs := by
  induction n generalizing p codeRef secs with
  | zero => exact absurd hn (Nat.not_lt_zero _)
  | succ n ih =>
    rcases Nat.lt_or_ge p last with hlt | hge
    · constructor
      · rintro ⟨str', hrun, hend⟩
        obtain ⟨htype, size, d, hsize, rest, hrest, rfl⟩ :=
          (runs_loadSections_succ (by exact hlt)).mp hrun
        obtain ⟨hpos, -⟩ := Forward.getu32 hsize
        obtain ⟨hlast, hsize⟩ := covers_getu32.runs_iff.mp hsize
        obtain rfl : last = d.last := hlast.symm
        obtain ⟨hsecs, rfl⟩ := (ih (by simp only at hpos; omega)).mp ⟨str', hrest, hend⟩
        exact ⟨.cons hlt htype hsize hsecs, rfl⟩
      · rintro ⟨_ | ⟨_, htype, hsize, hrest⟩, rfl⟩
        · exact absurd hlt (Nat.lt_irrefl _)
        · have hrun := covers_getu32.runs hsize
          obtain ⟨hpos, -⟩ := Forward.getu32 hrun
          obtain ⟨str', hrest, hend⟩ := (ih (by simp only at hpos; omega)).mpr ⟨hrest, rfl⟩
          exact ⟨str', (runs_loadSections_succ (by exact hlt)).mpr
            ⟨htype, _, _, hrun, _, hrest, rfl⟩, hend⟩
    · constructor
      · rintro ⟨_, hrun, hend⟩
        obtain ⟨rfl, rfl, rfl⟩ := (runs_loadSections_of_le (by exact hge)).mp hrun
        obtain rfl : p = last := hend
        exact ⟨.nil, rfl⟩
      · rintro ⟨_ | ⟨hlt, -⟩, rfl⟩
        · exact ⟨_, (runs_loadSections_of_le (by exact hge)).mpr ⟨rfl, rfl, rfl⟩, rfl⟩
        · exact absurd hlt (Nat.not_lt.mpr hge)

/-- `_fw_module_load` loads exactly the files, whatever their payloads are. -/
theorem load_iff_fileAt {file : FwStr} {loaded : LoadedModule} :
    (∃ str', Runs (_fwModuleLoad mem) file loaded str') ↔
      ∃ secs code, FileAt mem file secs code ∧ loaded = .new secs code := by
  simp only [runs_load]
  constructor
  · rintro ⟨str', hlen, hmagic, hversion, secs, code, hsecs, hend, rfl⟩
    obtain ⟨hsecs, hcode⟩ := (loadSections_iff (by omega)).mp ⟨str', hsecs, hend⟩
    exact ⟨secs, code, ⟨hlen, hmagic, hversion, hsecs, hcode.symm⟩, rfl⟩
  · rintro ⟨secs, code, ⟨hlen, hmagic, hversion, hsecs, hcode⟩, rfl⟩
    obtain ⟨str', hrun, hend⟩ := (loadSections_iff (Nat.lt_succ_self _)).mpr ⟨hsecs, hcode.symm⟩
    exact ⟨str', hlen, hmagic, hversion, secs, code, hrun, hend, rfl⟩

end

end FastWasm
